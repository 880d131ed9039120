import SystemsDrills.Lib.Exchange
import SystemsDrills.Mutex.Worker

/-!
# The mutex without sequential consistency

The counter of `worker` in `concurrency/01-mutex/mutex.c` is a plain `long long`, so the program has a
meaning only if no access of it is a data race.  Here the workers run on the memory of
`SystemsDrills.Lib.Views`: each `atomic_exchange` of the lock word has acquire and release, the counter
is accessed by plain loads and stores, and a load may find any store that its thread does not know to be
replaced.  `FUTEX_WAIT` compares the last store to the word, since it is atomic with them.

The lock word guards the counter: an unlocker's exchange carries its view, the exchanges of the threads
that found the lock taken pass it on, and who finds the lock free gets it.  So the owner's load finds the
last store, and every execution is one of the machine of `SystemsDrills.Mutex.Worker`, with the same
labels.
-/

namespace Futex

open Transition Views

/-! ## The machine -/

inductive Loc where
  | word
  | counter
deriving DecidableEq

/-- The workers on a memory with views. -/
structure ViewState (T : Type) where
  mem : Memory Loc T Int
  pc : T → Pc
  i : T → Nat
  body : T → Body

section

variable {T : Type}

/-- The lock, with the word as the last store left it. -/
def ViewState.lock (s : ViewState T) : State T := ⟨s.mem.value .word, s.pc⟩

/-- What is there if each load finds the last store. -/
def ViewState.last (s : ViewState T) : WorkerState T := ⟨s.lock, s.mem.value .counter, s.i, s.body⟩

/-- A step of the lock that leaves the word as it is. -/
theorem last_setPc {s : ViewState T} {l : State T} (h : l.word = s.lock.word) :
    ViewState.last { s with pc := l.pc } = s.last.setLock l := by
  cases l
  cases h
  rfl

theorem lock_eq {s : ViewState T} {msg : Msg Loc T Int} (h : s.mem.Last .word msg) :
    s.lock = ⟨msg.val, s.pc⟩ := by
  rw [ViewState.lock, h.value_eq]

variable [DecidableEq T]

inductive ViewStep (iter : Nat) : ViewState T → WorkerAct T → ViewState T → Prop where
  | callLock :
      s.body t = .load → s.i t < iter →
      Step s.lock (.callLock t) l →
      ViewStep iter s (.lock (.callLock t)) { s with pc := l.pc }
  | exchange :
      s.mem.Last .word msg →
      Step ⟨msg.val, s.pc⟩ (.exchange t new) l →
      ViewStep iter s (.lock (.exchange t new))
        { s with mem := s.mem.exchange t .word msg new, pc := l.pc }
  /-- A futex call, or the end of one. -/
  | futex :
      (∀ t, a ≠ .callLock t ∧ a ≠ .callUnlock t) → (∀ t new, a ≠ .exchange t new) →
      Step s.lock a l →
      ViewStep iter s (.lock a) { s with pc := l.pc }
  | load :
      s.pc t = .held → s.body t = .load → s.mem.Finds t .counter j msg →
      ViewStep iter s (.load t)
        { s with
          mem := s.mem.plainLoad t .counter j
          body := Function.update s.body t (.store msg.val) }
  | store :
      s.pc t = .held → s.body t = .store v →
      ViewStep iter s (.store t)
        { s with
          mem := s.mem.plainStore t .counter (longLong (v + 1))
          body := Function.update s.body t .stored }
  | callUnlock :
      s.body t = .stored →
      Step s.lock (.callUnlock t) l →
      ViewStep iter s (.lock (.callUnlock t)) { s with pc := l.pc }
  | next :
      s.pc t = .out → s.body t = .stored →
      ViewStep iter s (.next t)
        { s with
          i := Function.update s.i t (s.i t + 1)
          body := Function.update s.body t .load }

/-- The lock word and the counter are 0. -/
def viewStart (T : Type) : ViewState T where
  mem := .init fun _ => 0
  pc _ := .out
  i _ := 0
  body _ := .load

/-- `T` threads that run `worker` on a memory with views. -/
def viewWorkers (iter : Nat) (T : Type) [DecidableEq T] : System (ViewState T) (WorkerAct T) where
  init s := s = viewStart T
  step := ViewStep iter

/-! ## Steps of the lock -/

/-- Only an exchange writes the word. -/
theorem Step.word_eq {s l : State T} {a : Act T} (h : Step s a l)
    (ha : ∀ t new, a ≠ .exchange t new) : l.word = s.word := by
  cases h with
  | fastFree _ _ | fastBusy _ _ | slowFree _ _ | slowBusy _ _ | releaseQuiet _ _
  | releaseMarked _ _ => exact absurd rfl (ha _ _)
  | _ => rfl

/-- An exchange writes the new value, and its thread becomes the owner only if it found 0. -/
theorem Step.exchange_owns {s l : State T} {t : T} {new : Int} (h : Step s (.exchange t new) l) :
    l.word = new ∧ (∀ u ≠ t, (l.pc u).owns = (s.pc u).owns) ∧
      ((l.pc t).owns → (s.pc t).owns ∨ s.word = 0) := by
  have other : ∀ {s : State T} {p : Pc}, ∀ u ≠ t, ((s.goto t p).pc u).owns = (s.pc u).owns := by
    intro s p u hu
    simp [hu]
  cases h with
  | fastFree _ hw | slowFree _ hw => exact ⟨rfl, other, fun _ => .inr hw⟩
  | fastBusy _ _ | slowBusy _ _ => exact ⟨rfl, other, fun h => by simp [Pc.owns] at h⟩
  | releaseQuiet hpc _ | releaseMarked hpc _ =>
      exact ⟨rfl, other, fun _ => .inl (by rw [hpc]; rfl)⟩

/-- Without an exchange the lock keeps its owner. -/
theorem Step.owns_eq {s l : State T} {a : Act T} (h : Step s a l) (hx : s.Exclusive)
    (ha : ∀ t new, a ≠ .exchange t new) (u : T) : (l.pc u).owns = (s.pc u).owns := by
  have hword := h.word_eq ha
  obtain ⟨same, -⟩ | ⟨t, h0, hw, -⟩ | ⟨t, ht, hw, -⟩ := h.owns_cases
  · exact same u
  · exact absurd (hword.trans h0) hw
  · exact absurd (hword.symm.trans hw) (hx.word.mpr ⟨t, ht⟩)

/-! ## The invariant -/

/-- The last stores are a state of the interleaved workers, and the word guards the counter. -/
structure ViewState.Inv (iter : Nat) (s : ViewState T) : Prop where
  reachable : (workers iter T).Reachable s.last
  guards : s.mem.Guards .word .counter fun t => (s.pc t).owns

variable {iter : Nat} {s s' : ViewState T} {a : WorkerAct T} {t u : T}

theorem inv_viewStart [Nonempty T] (iter : Nat) : (viewStart T).Inv iter :=
  ⟨.init rfl, .init _ _ _ _⟩

theorem last_exchange {l : State T} (s : ViewState T) (t : T) (msg : Msg Loc T Int) :
    ViewState.last { s with mem := s.mem.exchange t .word msg l.word, pc := l.pc } =
      s.last.setLock l := by
  have hcounter : (s.mem.exchange t .word msg l.word).value .counter = s.mem.value .counter :=
    Memory.value_congr (Memory.exchange_hist_of_ne s.mem t msg l.word nofun)
  rw [ViewState.last, ViewState.lock]
  simp only [Memory.value_exchange, hcounter]
  rfl

theorem last_store (s : ViewState T) (t : T) (c : Int) :
    ViewState.last
        { s with
          mem := s.mem.plainStore t .counter c
          body := Function.update s.body t .stored } =
      (s.last.setCounter c).setBody t .stored := by
  have hword : (s.mem.plainStore t .counter c).value .word = s.mem.value .word :=
    Memory.value_congr (Memory.plainStore_hist_of_ne s.mem t c nofun)
  rw [ViewState.last, ViewState.lock]
  simp only [Memory.value_plainStore, hword]
  rfl

namespace ViewState.Inv

theorem exclusive (h : s.Inv iter) : s.lock.Exclusive :=
  exclusive_invariant.reachable (reachable_lock h.reachable)

/-- Who has returned from `my_lock` knows all accesses of the counter. -/
theorem mayStore (h : s.Inv iter) (hpc : s.pc t = .held) : s.mem.MayStore t .counter :=
  h.guards.owner t (by rw [hpc]; rfl)

theorem unique (h : s.Inv iter) (hpc : s.pc t = .held) (hu : (s.pc u).owns) : u = t :=
  h.exclusive.unique u t hu (by show (s.pc t).owns; rw [hpc]; rfl)

/-- The owner's load finds the last store. -/
theorem load_eq (h : s.Inv iter) (hpc : s.pc t = .held) {j : Nat} {msg : Msg Loc T Int}
    (hf : s.mem.Finds t .counter j msg) : s.mem.value .counter = msg.val :=
  (Memory.last_of_length_le (h.mayStore hpc).latest hf.1 hf.2).value_eq

/-- The step of the interleaved workers. -/
theorem simulates (h : s.Inv iter) (hstep : ViewStep iter s a s') :
    WorkerStep iter s.last a s'.last := by
  cases hstep with
  | callLock hb hi hl =>
      rw [last_setPc (hl.word_eq nofun)]
      exact .callLock hb hi hl
  | exchange hlast hl =>
      obtain ⟨rfl, -⟩ := hl.exchange_owns
      rw [last_exchange]
      refine .lock (fun _ => ⟨nofun, nofun⟩) ?_
      rw [← lock_eq hlast] at hl
      exact hl
  | futex hcall hex hl =>
      rw [last_setPc (hl.word_eq hex)]
      exact .lock hcall hl
  | load hpc hb hf =>
      rw [← h.load_eq hpc hf]
      exact .load hpc hb
  | @store _ t v hpc hb =>
      rw [last_store]
      exact .store hpc hb
  | callUnlock hb hl =>
      rw [last_setPc (hl.word_eq nofun)]
      exact .callUnlock hb hl
  | next hpc hb => exact .next hpc hb

theorem step (h : s.Inv iter) (hstep : ViewStep iter s a s') : s'.Inv iter := by
  refine ⟨h.reachable.step (h.simulates hstep), ?_⟩
  cases hstep with
  | callLock hb hi hl => exact h.guards.congr fun u => by rw [hl.owns_eq h.exclusive nofun u]; rfl
  | @exchange t _ _ _ _ hlast hl =>
      obtain ⟨-, hother, htake⟩ := hl.exchange_owns
      refine h.guards.exchange nofun hlast (fun u hu => ?_) (fun u hu => ?_) _
      · by_cases hut : u = t
        · subst hut
          rcases htake hu with hown | hzero
          · exact .inl hown
          · refine .inr ⟨rfl, fun v hv => ?_⟩
            exact h.exclusive.word.mpr ⟨v, hv⟩ (by rw [lock_eq hlast]; exact hzero)
        · exact .inl (by rw [← hother u hut]; exact hu)
      · by_cases hut : u = t
        · exact .inr hut
        · exact .inl (by rw [hother u hut]; exact hu)
  | futex hcall hex hl => exact h.guards.congr fun u => by rw [hl.owns_eq h.exclusive hex u]; rfl
  | @load _ t j msg hpc hb hf =>
      exact .of_owner (t := t) (by rw [hpc]; rfl) (fun u hu => h.unique hpc hu)
        ((h.mayStore hpc).plainLoad j)
  | @store _ t v hpc hb =>
      exact .of_owner (t := t) (by rw [hpc]; rfl) (fun u hu => h.unique hpc hu)
        ((h.mayStore hpc).plainStore _)
  | callUnlock hb hl => exact h.guards.congr fun u => by rw [hl.owns_eq h.exclusive nofun u]; rfl
  | next hpc hb => exact h.guards

theorem exec (h : s.Inv iter) {as : List (WorkerAct T)} (hexec : (viewWorkers iter T).Exec s as s') :
    (workers iter T).Exec s.last as s'.last ∧ s'.Inv iter := by
  induction hexec with
  | nil => exact ⟨.nil, h⟩
  | cons hstep _ ih =>
      obtain ⟨hlast, hinv⟩ := ih (h.step hstep)
      exact ⟨.cons (h.simulates hstep) hlast, hinv⟩

end ViewState.Inv

end

/-! ## The counter -/

/-- The mutex makes the count safe on a memory with views.  Every execution is one of the interleaved
workers, with the same labels and the last stores as its state.  No access of the counter is a race.
When the threads have finished and `main` has joined them, its load is no race either and finds
`iter * n` as a `long long`. -/
theorem mutex_race_free {n iter : Nat} {as : List (WorkerAct (Fin n))} {s : ViewState (Fin n)}
    (hn : 0 < n) (h : (viewWorkers iter (Fin n)).Exec (viewStart (Fin n)) as s) :
    (workers iter (Fin n)).Exec ⟨start (Fin n), 0, fun _ => 0, fun _ => .load⟩ as s.last ∧
      (∀ t, s.pc t = .held → s.body t = .load → s.mem.MayLoad t .counter) ∧
      (∀ t v, s.pc t = .held → s.body t = .store v → s.mem.MayStore t .counter) ∧
      ((∀ t, s.last.Finished iter t) → ∀ v, (∀ t, s.mem.view t ≤ v) →
        s.mem.Covers v .counter ∧
          ∀ j msg, v (.store .counter) ≤ j → (s.mem.hist .counter)[j]? = some msg →
            msg.val = longLong (iter * n)) := by
  have : Nonempty (Fin n) := ⟨⟨0, hn⟩⟩
  obtain ⟨hexec, hinv⟩ := (inv_viewStart iter).exec h
  refine ⟨hexec, fun t hpc _ => (hinv.mayStore hpc).latest, fun t _ hpc _ => hinv.mayStore hpc, ?_⟩
  intro hdone v hv
  obtain ⟨t, ht⟩ := hinv.guards.known
  have hcovers : s.mem.Covers v .counter := ht.covers.mono (hv t)
  refine ⟨hcovers, fun j msg hj hmsg => ?_⟩
  have hcounter := (counter_invariant iter).reachable hinv.reachable
  have htotal := total_of_finished ((inRound_invariant iter).reachable hinv.reachable) hdone
  rw [htotal, Fintype.card_fin, Nat.cast_mul] at hcounter
  rw [← (Memory.last_of_length_le hcovers.stores hj hmsg).value_eq]
  exact hcounter

/-- Two threads, of which the second finds the lock taken and gets it in the slow path. -/
theorem mutex_race_free_two :
    ∃ as, ∃ s : ViewState (Fin 2), (viewWorkers 1 (Fin 2)).Exec (viewStart (Fin 2)) as s ∧
      (∀ t, s.last.Finished 1 t) ∧
      (s.mem.hist .counter).map Msg.val = [0, 1, 2] ∧
      ∀ v, (∀ t, s.mem.view t ≤ v) → ∀ j msg, v (.store .counter) ≤ j →
        (s.mem.hist .counter)[j]? = some msg → msg.val = 2 := by
  have h : (viewWorkers 1 (Fin 2)).Exec (viewStart (Fin 2)) _ _ :=
    .cons (.callLock (t := 0) rfl (by decide) (.callLock rfl)) <|
    .cons (.callLock (t := 1) rfl (by decide) (.callLock rfl)) <|
    .cons (.exchange (t := 0) rfl (.fastFree rfl rfl)) <|
    .cons (.exchange (t := 1) rfl (.fastBusy rfl (by decide))) <|
    .cons (.load (t := 0) (j := 0) rfl rfl ⟨by decide, rfl⟩) <|
    .cons (.store (t := 0) rfl rfl) <|
    .cons (.callUnlock (t := 0) rfl (.callUnlock rfl)) <|
    .cons (.exchange (t := 0) rfl (.releaseQuiet rfl (by decide))) <|
    .cons (.next (t := 0) rfl rfl) <|
    .cons (.exchange (t := 1) rfl (.slowFree rfl rfl)) <|
    .cons (.load (t := 1) (j := 1) rfl rfl ⟨by decide, rfl⟩) <|
    .cons (.store (t := 1) rfl rfl) <|
    .cons (.callUnlock (t := 1) rfl (.callUnlock rfl)) <|
    .cons (.exchange (t := 1) rfl (.releaseMarked rfl rfl)) <|
    .cons (.futex (by simp) (by simp) (.wakeNobody (t := 1) rfl (by decide))) <|
    .cons (.next (t := 1) rfl rfl) .nil
  have hdone := (mutex_race_free (by decide) h).2.2.2
  refine ⟨_, _, h, ?_, by decide, fun v hv j msg hj hmsg => (hdone ?_ v hv).2 j msg hj hmsg⟩
  all_goals
    intro t
    fin_cases t
    · exact ⟨rfl, rfl, by decide⟩
    · exact ⟨rfl, rfl, by decide⟩

end Futex
