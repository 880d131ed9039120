import SystemsDrills.Lib.Transition

/-!
# The three-state futex mutex

`my_lock` and `my_unlock` of `concurrency/01-mutex/mutex.c`.  The lock word is
0 when the lock is free, 1 when it is held and nobody waits, 2 when it is held
and somebody may wait.

The machine interleaves any number of threads that call `my_lock` and, once
they hold the lock, `my_unlock`, over and over.  Each `atomic_exchange` and
each futex call is one step.  `FUTEX_WAIT` puts its caller to sleep only if the
word is still 2 and otherwise returns at once (`EAGAIN`).  A sleeper may return
without a wake (`EINTR`).  `FUTEX_WAKE` with count 1 wakes one sleeper of the
kernel's choice, or nobody if nobody sleeps.

The fast path writes 1 whatever it finds, so a newcomer can overwrite the mark
2 of threads that sleep.  `no_lost_wakeup` says why this is sound: a thread
that removes the mark either stays awake in the slow path and puts it back, or
is an unlocker that owes a wake.
-/

namespace Futex

open Transition

/-! ## The machine -/

/-- Where a thread is. -/
inductive Pc where
  /-- Outside `my_lock` and `my_unlock`, without the lock. -/
  | out
  /-- `my_lock`, before `atomic_exchange(word, 1)`. -/
  | fast
  /-- The slow path of `my_lock`, before `atomic_exchange(word, 2)`. -/
  | slow
  /-- The slow path, before `FUTEX_WAIT`. -/
  | wait
  /-- Asleep in `FUTEX_WAIT`. -/
  | asleep
  /-- `my_lock` has returned. -/
  | held
  /-- `my_unlock`, before `atomic_exchange(word, 0)`. -/
  | release
  /-- `my_unlock`, before `FUTEX_WAKE`. -/
  | wake
deriving DecidableEq, Repr

/-- Between the return of `my_lock` and the exchange of `my_unlock`. -/
def Pc.owns : Pc → Bool
  | .held | .release => true
  | _ => false

/-- In the slow path of `my_lock` and not asleep. -/
def Pc.retrying : Pc → Bool
  | .slow | .wait => true
  | _ => false

/-- In `my_lock` or in `my_unlock`. -/
def Pc.inside : Pc → Bool
  | .out | .held => false
  | _ => true

/-- The lock word and the place of each thread. -/
structure State (T : Type) where
  word : Int
  pc : T → Pc

/-- What a step is: which thread makes which access. -/
inductive Act (T : Type) where
  | callLock (t : T)
  | exchange (t : T) (new : Int)
  | futexWait (t : T)
  /-- A sleeper returns from `FUTEX_WAIT` on its own. -/
  | interrupt (t : T)
  | callUnlock (t : T)
  | futexWake (t : T)

/-- The thread that makes the step. -/
def Act.thread : Act T → T
  | .callLock t | .exchange t _ | .futexWait t | .interrupt t | .callUnlock t | .futexWake t => t

variable {T : Type} [DecidableEq T]

/-- The state after thread `t` moved to `p`. -/
@[simps] def State.goto (s : State T) (t : T) (p : Pc) : State T :=
  { s with pc := Function.update s.pc t p }

/-- The state after `w` was written to the lock word. -/
@[simps] def State.put (s : State T) (w : Int) : State T := { s with word := w }

@[grind =] theorem State.pc_goto (s : State T) (t u : T) (p : Pc) :
    (s.goto t p).pc u = if u = t then p else s.pc u := by
  simp [Function.update_apply]

inductive Step : State T → Act T → State T → Prop where
  | callLock :
      s.pc t = .out →
      Step s (.callLock t) (s.goto t .fast)
  /-- The fast path finds the lock free. -/
  | fastFree :
      s.pc t = .fast → s.word = 0 →
      Step s (.exchange t 1) ((s.put 1).goto t .held)
  | fastBusy :
      s.pc t = .fast → s.word ≠ 0 →
      Step s (.exchange t 1) ((s.put 1).goto t .slow)
  /-- The slow path finds the lock free, and leaves 2 in the word. -/
  | slowFree :
      s.pc t = .slow → s.word = 0 →
      Step s (.exchange t 2) ((s.put 2).goto t .held)
  | slowBusy :
      s.pc t = .slow → s.word ≠ 0 →
      Step s (.exchange t 2) ((s.put 2).goto t .wait)
  | sleep :
      s.pc t = .wait → s.word = 2 →
      Step s (.futexWait t) (s.goto t .asleep)
  /-- `EAGAIN`. -/
  | again :
      s.pc t = .wait → s.word ≠ 2 →
      Step s (.futexWait t) (s.goto t .slow)
  | interrupt :
      s.pc t = .asleep →
      Step s (.interrupt t) (s.goto t .slow)
  | callUnlock :
      s.pc t = .held →
      Step s (.callUnlock t) (s.goto t .release)
  | releaseQuiet :
      s.pc t = .release → s.word ≠ 2 →
      Step s (.exchange t 0) ((s.put 0).goto t .out)
  | releaseMarked :
      s.pc t = .release → s.word = 2 →
      Step s (.exchange t 0) ((s.put 0).goto t .wake)
  | wakeOne :
      s.pc t = .wake → s.pc u = .asleep →
      Step s (.futexWake t) ((s.goto t .out).goto u .slow)
  | wakeNobody :
      s.pc t = .wake → (∀ u, s.pc u ≠ .asleep) →
      Step s (.futexWake t) (s.goto t .out)

/-- The word is statically zero and every thread starts outside. -/
def start (T : Type) : State T := ⟨0, fun _ => .out⟩

/-- Any number of threads on one lock word. -/
def machine (T : Type) [DecidableEq T] : System (State T) (Act T) where
  init s := s = start T
  step := Step

/-! ## No lost wakeup -/

/-- Somebody answers for the sleepers: the mark is in the word, a thread in
the slow path will put it there, or an unlocker that took it away owes a
wake. -/
def State.Answered (s : State T) : Prop :=
  s.word = 2 ∨ (∃ t, (s.pc t).retrying) ∨ ∃ t, s.pc t = .wake

/-- A thread put into the slow path answers for the sleepers. -/
theorem answered_of_slow (s : State T) (t : T) : (s.goto t .slow).Answered :=
  .inr (.inl ⟨t, by simp [Pc.retrying]⟩)

/-- A step of a thread that neither retries nor owes a wake keeps the answer,
unless it takes the mark out of the word. -/
theorem State.Answered.goto {s : State T} {t : T} {p : Pc} {w : Int} (h : s.Answered)
    (hr : (s.pc t).retrying = false) (hp : s.pc t ≠ .wake) (hw : s.word = 2 → w = 2) :
    ((s.put w).goto t p).Answered := by
  rcases h with h | ⟨u, hu⟩ | ⟨u, hu⟩
  · exact .inl (hw h)
  · have hut : u ≠ t := by rintro rfl; simp [hr] at hu
    exact .inr (.inl ⟨u, by simpa [hut] using hu⟩)
  · have hut : u ≠ t := by rintro rfl; exact hp hu
    exact .inr (.inr ⟨u, by simpa [hut] using hu⟩)

/-- A thread that is put anywhere but to sleep adds no sleeper. -/
theorem asleep_of_goto {s : State T} {t : T} {p : Pc} (hp : p ≠ .asleep)
    (h : ∃ u, (s.goto t p).pc u = .asleep) : ∃ u, s.pc u = .asleep := by
  obtain ⟨u, hu⟩ := h
  by_cases hut : u = t
  · subst hut
    exact absurd (by simpa using hu) hp
  · exact ⟨u, by simpa [hut] using hu⟩

/-- While a thread sleeps, somebody answers for it.  One step: the mark 2
leaves the word only by the hand of a newcomer, who is then in the slow path,
or of an unlocker, who then owes a wake.  A thread leaves the slow path only
right after it wrote 2, and a wake that is issued puts a sleeper there. -/
theorem answered_step {s s' : State T} {a : Act T}
    (ih : (∃ t, s.pc t = .asleep) → s.Answered) (h : Step s a s') :
    (∃ t, s'.pc t = .asleep) → s'.Answered := by
  intro hs
  cases h with
  | callLock hpc =>
      exact (ih (asleep_of_goto (by simp) hs)).goto (by simp [hpc, Pc.retrying])
        (by simp [hpc]) id
  | @fastFree t hpc hw =>
      exact (ih (asleep_of_goto (by simp) hs)).goto (t := t) (by simp [hpc, Pc.retrying])
        (by simp [hpc]) (by simp [hw])
  | fastBusy _ _ => exact answered_of_slow _ _
  | slowFree _ _ => exact .inl rfl
  | slowBusy _ _ => exact .inl rfl
  | sleep _ hw => exact .inl hw
  | again _ _ => exact answered_of_slow _ _
  | interrupt _ => exact answered_of_slow _ _
  | callUnlock hpc =>
      exact (ih (asleep_of_goto (by simp) hs)).goto (by simp [hpc, Pc.retrying])
        (by simp [hpc]) id
  | @releaseQuiet t hpc hw =>
      exact (ih (asleep_of_goto (by simp) hs)).goto (t := t) (by simp [hpc, Pc.retrying])
        (by simp [hpc]) (fun h => absurd h hw)
  | @releaseMarked t _ _ => exact .inr (.inr ⟨t, by simp⟩)
  | wakeOne _ _ => exact answered_of_slow _ _
  | wakeNobody _ hno =>
      obtain ⟨u, hu⟩ := asleep_of_goto (by simp) hs
      exact absurd hu (hno u)

theorem answered_invariant :
    (machine T).Invariant fun s => (∃ t, s.pc t = .asleep) → s.Answered where
  start := by
    rintro s rfl ⟨t, ht⟩
    cases ht
  next _ _ _ _ ih h := answered_step ih h

/-- No wakeup is lost: in every reachable state with a sleeper the word is 2,
or a thread is awake in the slow path of `my_lock`, or an unlocker that read 2
has not issued its `FUTEX_WAKE`.  So the lock is never free with a thread
asleep and all the others outside. -/
theorem no_lost_wakeup {s : State T} (h : (machine T).Reachable s) :
    ((∃ t, s.pc t = .asleep) →
      s.word = 2 ∨ (∃ t, s.pc t = .slow ∨ s.pc t = .wait) ∨ ∃ t, s.pc t = .wake) ∧
    ¬ (s.word = 0 ∧ ∃ t, s.pc t = .asleep ∧ ∀ u, u ≠ t → (s.pc u).inside = false) := by
  have key := answered_invariant.reachable h
  refine ⟨fun hs => ?_, ?_⟩
  · rcases key hs with hw | ⟨t, ht⟩ | hw
    · exact .inl hw
    · refine .inr (.inl ⟨t, ?_⟩)
      cases hp : s.pc t <;> simp_all [Pc.retrying]
    · exact .inr (.inr hw)
  · rintro ⟨hw, t, ht, hall⟩
    have other : ∀ u, (s.pc u).inside = true → u = t := by
      intro u hu
      by_contra hut
      simp [hall u hut] at hu
    rcases key ⟨t, ht⟩ with h2 | ⟨u, hu⟩ | ⟨u, hu⟩
    · simp [hw] at h2
    · have hin : (s.pc u).inside = true := by cases hp : s.pc u <;> simp_all [Pc.retrying, Pc.inside]
      rw [other u hin, ht] at hu
      cases hu
    · rw [other u (by simp [hu, Pc.inside]), ht] at hu
      cases hu

/-- A newcomer has overwritten the mark of a sleeper: the word is 1, and the
newcomer is the thread that answers. -/
theorem no_lost_wakeup_newcomer :
    ∃ s : State (Fin 3), (machine (Fin 3)).Reachable s ∧ s.word = 1 ∧ s.pc 1 = .asleep ∧
      ((∃ t, s.pc t = .slow ∨ s.pc t = .wait) ∨ ∃ t, s.pc t = .wake) := by
  have h0 : (machine (Fin 3)).Reachable (start (Fin 3)) := .init rfl
  -- Thread 0 takes the lock, thread 1 goes to sleep, thread 2 barges in.
  have h1 := h0.step (Step.callLock (t := 0) rfl)
  have h2 := h1.step (Step.fastFree (t := 0) rfl rfl)
  have h3 := h2.step (Step.callLock (t := 1) rfl)
  have h4 := h3.step (Step.fastBusy (t := 1) rfl (by decide))
  have h5 := h4.step (Step.slowBusy (t := 1) rfl (by decide))
  have h6 := h5.step (Step.sleep (t := 1) rfl rfl)
  have h7 := h6.step (Step.callLock (t := 2) rfl)
  have h8 := h7.step (Step.fastBusy (t := 2) rfl (by decide))
  refine ⟨_, h8, rfl, rfl, ?_⟩
  rcases (no_lost_wakeup h8).1 ⟨1, rfl⟩ with h | h
  · exact absurd h (by decide)
  · exact h

/-! ## Mutual exclusion -/

/-- What a step does to ownership.  Either it moves no owner and does not make
the word zero or non-zero, or its thread takes a free lock, or its thread gives
the lock back. -/
theorem Step.owns_cases {s s' : State T} {a : Act T} (h : Step s a s') :
    ((∀ u, (s'.pc u).owns = (s.pc u).owns) ∧ (s'.word = 0 ↔ s.word = 0)) ∨
    (∃ t, s.word = 0 ∧ s'.word ≠ 0 ∧ (s'.pc t).owns ∧
      ∀ u, u ≠ t → (s'.pc u).owns = (s.pc u).owns) ∨
    (∃ t, (s.pc t).owns ∧ s'.word = 0 ∧ (s'.pc t).owns = false ∧
      ∀ u, u ≠ t → (s'.pc u).owns = (s.pc u).owns) := by
  -- A move of one thread between two places of equal ownership moves no owner.
  have move : ∀ {s : State T} {t : T} {p : Pc}, (s.pc t).owns = p.owns →
      ∀ u, ((s.goto t p).pc u).owns = (s.pc u).owns := by
    intro s t p hp u
    by_cases hu : u = t
    · subst hu; simp [hp]
    · simp [hu]
  have other : ∀ {s : State T} {t : T} {p : Pc} (u : T), u ≠ t →
      ((s.goto t p).pc u).owns = (s.pc u).owns := by
    intro s t p u hu
    simp [hu]
  cases h with
  | callLock hpc => exact .inl ⟨move (by simp [hpc, Pc.owns]), .rfl⟩
  | fastFree hpc hw =>
      exact .inr (.inl ⟨_, hw, by simp, by simp [Pc.owns], other⟩)
  | fastBusy hpc hw => exact .inl ⟨move (by simp [hpc, Pc.owns]), by simp [hw]⟩
  | slowFree hpc hw =>
      exact .inr (.inl ⟨_, hw, by simp, by simp [Pc.owns], other⟩)
  | slowBusy hpc hw => exact .inl ⟨move (by simp [hpc, Pc.owns]), by simp [hw]⟩
  | sleep hpc _ => exact .inl ⟨move (by simp [hpc, Pc.owns]), .rfl⟩
  | again hpc _ => exact .inl ⟨move (by simp [hpc, Pc.owns]), .rfl⟩
  | interrupt hpc => exact .inl ⟨move (by simp [hpc, Pc.owns]), .rfl⟩
  | callUnlock hpc => exact .inl ⟨move (by simp [hpc, Pc.owns]), .rfl⟩
  | releaseQuiet hpc _ =>
      exact .inr (.inr ⟨_, by simp [hpc, Pc.owns], rfl, by simp [Pc.owns], other⟩)
  | releaseMarked hpc _ =>
      exact .inr (.inr ⟨_, by simp [hpc, Pc.owns], rfl, by simp [Pc.owns], other⟩)
  | @wakeOne t u ht hu =>
      have hut : u ≠ t := by rintro rfl; simp [ht] at hu
      refine .inl ⟨fun v => ?_, .rfl⟩
      rw [move (by simp [hut, hu, Pc.owns]) v, move (by simp [ht, Pc.owns]) v]
  | wakeNobody hpc _ => exact .inl ⟨move (by simp [hpc, Pc.owns]), .rfl⟩

/-- Only its own call of `my_lock` moves a thread that is outside. -/
theorem Step.out_or {s s' : State T} {a : Act T} {u : T} (h : Step s a s') (hu : s.pc u = .out) :
    s'.pc u = .out ∨ a = .callLock u := by
  cases h with
  | @callLock t hpc =>
      by_cases hut : u = t
      · exact .inr (by rw [hut])
      · exact .inl (by simpa [hut] using hu)
  | _ => left; grind [State.put_pc]

/-- Only its own call of `my_unlock` moves a thread that holds the lock. -/
theorem Step.held_or {s s' : State T} {a : Act T} {u : T} (h : Step s a s')
    (hu : s.pc u = .held) : s'.pc u = .held ∨ a = .callUnlock u := by
  cases h with
  | @callUnlock t hpc =>
      by_cases hut : u = t
      · exact .inr (by rw [hut])
      · exact .inl (by simpa [hut] using hu)
  | _ => left; grind [State.put_pc]

/-- At most one owner, and the word is non-zero exactly when there is one. -/
structure State.Exclusive (s : State T) : Prop where
  unique : ∀ t u, (s.pc t).owns → (s.pc u).owns → t = u
  word : s.word ≠ 0 ↔ ∃ t, (s.pc t).owns

theorem State.Exclusive.step {s s' : State T} {a : Act T} (ih : s.Exclusive) (h : Step s a s') :
    s'.Exclusive := by
  rcases h.owns_cases with ⟨same, hw⟩ | ⟨t, h0, hw, ht, other⟩ | ⟨t, ht, hw, ht', other⟩
  · refine ⟨fun t u => ?_, ?_⟩
    · simpa only [same] using ih.unique t u
    · simpa only [same, ne_eq, hw] using ih.word
  · -- The word was zero, so nobody owned the lock and `t` is now the only owner.
    have only : ∀ u, (s'.pc u).owns → u = t := by
      intro u hu
      by_contra hut
      rw [other u hut] at hu
      exact ih.word.mpr ⟨u, hu⟩ h0
    exact ⟨fun u v hu hv => (only u hu).trans (only v hv).symm, fun _ => ⟨t, ht⟩, fun _ => hw⟩
  · have none : ∀ u, ¬ (s'.pc u).owns := by
      intro u hu
      by_cases hut : u = t
      · rw [hut, ht'] at hu
        cases hu
      · rw [other u hut] at hu
        exact hut (ih.unique u t hu ht)
    exact ⟨fun u _ hu => absurd hu (none u), fun h => absurd hw h,
      fun ⟨u, hu⟩ => absurd hu (none u)⟩

theorem exclusive_invariant : (machine T).Invariant State.Exclusive where
  start := by
    rintro s rfl
    exact ⟨fun _ _ h => absurd h (by simp [start, Pc.owns]), by simp [start, Pc.owns]⟩
  next _ _ _ _ ih h := ih.step h

end Futex
