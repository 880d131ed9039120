import SystemsDrills.Mutex.Worker

/-!
# The counting workers come to their end

`worker` of `concurrency/01-mutex/mutex.c` once more.  Together with the exact count of
`SystemsDrills.Mutex.Worker` this is the whole assertion of `main`: the count is right at the end, and
the end comes.

There is no deadlock: a thread can always move unless it sleeps, and somebody who is awake answers
for a sleeper.

There is no run without end.  A waiter that finds the mark 2 gone tries again, and so may all the
others.  But only the exchange of a newcomer and that of an unlocker take the mark away, once each in
a round.  So each round is charged with the retries of all other threads that it may cause.
-/

namespace Futex

open Transition

section

variable {T : Type} [DecidableEq T] {iter : Nat} {s s' : WorkerState T} {a : WorkerAct T}

/-- The thread that makes the step. -/
def WorkerAct.thread : WorkerAct T → T
  | .lock b => b.thread
  | .load t | .store t | .next t => t

/-! ## No deadlock -/

/-- A thread that does not sleep can move, unless it has finished. -/
theorem exists_step_of_awake (hr : ∀ t, s.InRound iter t) {t : T} (hf : ¬ s.Finished iter t)
    (ht : s.lock.pc t ≠ .asleep) : ∃ a s', WorkerStep iter s a s' ∧ a.thread = t := by
  cases hpc : s.lock.pc t with
  | out =>
      cases hb : s.body t with
      | load =>
          by_cases hlt : s.i t < iter
          · exact ⟨_, _, .callLock hb hlt (.callLock hpc), rfl⟩
          · exact absurd ⟨hpc, hb, hlt⟩ hf
      | store v =>
          rw [((hr t).owner v hb).1] at hpc
          cases hpc
      | stored => exact ⟨_, _, .next hpc hb, rfl⟩
  | fast =>
      by_cases hw : s.lock.word = 0
      · exact ⟨_, _, .lock (by simp) (.fastFree hpc hw), rfl⟩
      · exact ⟨_, _, .lock (by simp) (.fastBusy hpc hw), rfl⟩
  | slow =>
      by_cases hw : s.lock.word = 0
      · exact ⟨_, _, .lock (by simp) (.slowFree hpc hw), rfl⟩
      · exact ⟨_, _, .lock (by simp) (.slowBusy hpc hw), rfl⟩
  | wait =>
      by_cases hw : s.lock.word = 2
      · exact ⟨_, _, .lock (by simp) (.sleep hpc hw), rfl⟩
      · exact ⟨_, _, .lock (by simp) (.again hpc hw), rfl⟩
  | asleep => exact absurd hpc ht
  | held =>
      cases hb : s.body t with
      | load => exact ⟨_, _, .load hpc hb, rfl⟩
      | store v => exact ⟨_, _, .store hpc hb, rfl⟩
      | stored => exact ⟨_, _, .callUnlock hb (.callUnlock hpc), rfl⟩
  | release =>
      by_cases hw : s.lock.word = 2
      · exact ⟨_, _, .lock (by simp) (.releaseMarked hpc hw), rfl⟩
      · exact ⟨_, _, .lock (by simp) (.releaseQuiet hpc hw), rfl⟩
  | wake =>
      by_cases hu : ∃ u, s.lock.pc u = .asleep
      · obtain ⟨u, hu⟩ := hu
        exact ⟨_, _, .lock (by simp) (.wakeOne hpc hu), rfl⟩
      · exact ⟨_, _, .lock (by simp) (.wakeNobody hpc fun u h => hu ⟨u, h⟩), rfl⟩

/-- While a thread sleeps, another one is in `my_lock` or `my_unlock` or between them, awake. -/
theorem exists_awake {l : State T} (hl : (machine T).Reachable l) {t : T} (ht : l.pc t = .asleep) :
    ∃ u, l.pc u ≠ .asleep ∧ l.pc u ≠ .out := by
  rcases answered_invariant.reachable hl ⟨t, ht⟩ with hw | ⟨u, hu⟩ | ⟨u, hu⟩
  · -- The mark is in the word, so the lock has an owner.
    obtain ⟨u, hu⟩ := (exclusive_invariant.reachable hl).word.mp (by simp [hw])
    refine ⟨u, ?_, ?_⟩ <;> rintro h <;> simp [h, Pc.owns] at hu
  · refine ⟨u, ?_, ?_⟩ <;> rintro h <;> simp [h, Pc.retrying] at hu
  · refine ⟨u, ?_, ?_⟩ <;> rintro h <;> simp [h] at hu

/-- The workers do not deadlock.  In whatever order they move, as long as one of them has not
finished there is a thread that does not sleep and can move. -/
theorem worker_no_deadlock (hs : (workers iter T).Reachable s) (hf : ¬ ∀ t, s.Finished iter t) :
    ∃ a s', WorkerStep iter s a s' ∧ s.lock.pc a.thread ≠ .asleep := by
  have hr := (inRound_invariant iter).reachable hs
  obtain ⟨t, ht⟩ := not_forall.mp hf
  by_cases hsleep : s.lock.pc t = .asleep
  · obtain ⟨u, hu, hout⟩ := exists_awake (reachable_lock hs) hsleep
    obtain ⟨a, s', hstep, rfl⟩ := exists_step_of_awake hr (fun h => hout h.1) hu
    exact ⟨a, s', hstep, hu⟩
  · obtain ⟨a, s', hstep, rfl⟩ := exists_step_of_awake hr ht hsleep
    exact ⟨a, s', hstep, hsleep⟩

end

/-- One thread holds the lock and the other one sleeps. -/
theorem worker_no_deadlock_asleep :
    ∃ s : WorkerState (Fin 2), (workers 1 (Fin 2)).Reachable s ∧ s.lock.pc 1 = .asleep ∧
      ∃ a s', WorkerStep 1 s a s' ∧ s.lock.pc a.thread ≠ .asleep := by
  have h0 : (workers 1 (Fin 2)).Reachable ⟨start _, 0, fun _ => 0, fun _ => .load⟩ := .init rfl
  have h1 := h0.step (.callLock (t := 0) rfl (by decide) (.callLock rfl))
  have h2 := h1.step (.callLock (t := 1) rfl (by decide) (.callLock rfl))
  have h3 := h2.step (.lock (by simp) (.fastFree (t := 0) rfl rfl))
  have h4 := h3.step (.lock (by simp) (.fastBusy (t := 1) rfl (by decide)))
  have h5 := h4.step (.lock (by simp) (.slowBusy (t := 1) rfl (by decide)))
  have h6 := h5.step (.lock (by simp) (.sleep (t := 1) rfl rfl))
  exact ⟨_, h6, rfl, worker_no_deadlock h6 fun hf => absurd (hf 1).1 (by decide)⟩

/-! ## The weight of the lock -/

section

variable {T : Type} [DecidableEq T] [Fintype T] {s s' : State T} {a : Act T} {t : T} {p : Pc} {w : Int}

/-- What the other threads may have to pay when the mark is taken away: each of them tries again and
waits again. -/
def retries (T : Type) [Fintype T] : Nat := 2 * (Fintype.card T - 1)

/-- What a thread has still to pay until it has returned from `my_unlock`, with the increment left
out.  `r` stands for `retries`, and `marked` says if the word is 2. -/
def Pc.weight (r : Nat) (marked : Bool) : Pc → Nat
  | .out => 0
  | .wake => 3
  | .release | .asleep => r + 4
  | .held => r + 5
  | .wait => if marked then r + 5 else r + 7
  | .slow => r + 6
  | .fast => 2 * r + 7

/-- What a step costs apart from that. -/
def Act.charge (r : Nat) : Act T → Nat
  | .callLock _ => 2 * r + 8
  | .interrupt _ => 3
  | .exchange _ _ | .futexWait _ | .callUnlock _ | .futexWake _ => 0

/-- Only the loss of the mark makes a place dearer. -/
theorem Pc.weight_anti {r : Nat} {m m' : Bool} (h : m = true → m' = true) (p : Pc) :
    p.weight r m' ≤ p.weight r m := by
  cases p <;> cases m <;> cases m' <;> simp_all [Pc.weight]

theorem Pc.weight_le_add_two {r : Nat} (m m' : Bool) (p : Pc) :
    p.weight r m' ≤ p.weight r m + 2 := by
  cases p <;> cases m <;> cases m' <;> simp [Pc.weight]

def State.weight (s : State T) : Nat := ∑ t, (s.pc t).weight (retries T) (s.word = 2)

theorem weight_split (s : State T) (t : T) :
    s.weight = (s.pc t).weight (retries T) (s.word = 2) +
      ∑ u ∈ Finset.univ.erase t, (s.pc u).weight (retries T) (s.word = 2) :=
  (Finset.add_sum_erase _ _ (Finset.mem_univ t)).symm

theorem weight_split_goto (s : State T) (t : T) (p : Pc) (w : Int) :
    ((s.put w).goto t p).weight = p.weight (retries T) (w = 2) +
      ∑ u ∈ Finset.univ.erase t, (s.pc u).weight (retries T) (w = 2) := by
  rw [weight_split _ t, State.goto_pc, Function.update_self]
  refine congrArg _ (Finset.sum_congr rfl fun u hu => ?_)
  rw [State.goto_pc, Function.update_of_ne (Finset.ne_of_mem_erase hu)]
  rfl

theorem weight_goto (s : State T) (t : T) (p : Pc) :
    (s.goto t p).weight + (s.pc t).weight (retries T) (s.word = 2) =
      s.weight + p.weight (retries T) (s.word = 2) := by
  have hnew := weight_split_goto s t p s.word
  rw [weight_split s t, show s.goto t p = (s.put s.word).goto t p from rfl, hnew]
  omega

/-- A thread moves from `p` to `p'` and pays, and leaves the mark in the word. -/
theorem weight_lt_keep {p p' : Pc} {c : Nat} (hpc : s.pc t = p) (hs' : s' = (s.put w).goto t p')
    (hw : s.word = 2 → w = 2)
    (hp : p'.weight (retries T) (w = 2) < p.weight (retries T) (s.word = 2) + c) :
    s'.weight < s.weight + c := by
  have hrest : ∑ u ∈ Finset.univ.erase t, (s.pc u).weight (retries T) (w = 2) ≤
      ∑ u ∈ Finset.univ.erase t, (s.pc u).weight (retries T) (s.word = 2) :=
    Finset.sum_le_sum fun u _ => Pc.weight_anti (by simpa using hw) _
  rw [hs', weight_split_goto, weight_split s t, hpc]
  omega

/-- A thread moves from `p` to `p'` and pays, also for the loss of the mark. -/
theorem weight_lt_any {p p' : Pc} {c : Nat} (hpc : s.pc t = p) (hs' : s' = (s.put w).goto t p')
    (hp : p'.weight (retries T) (w = 2) + retries T <
      p.weight (retries T) (s.word = 2) + c) : s'.weight < s.weight + c := by
  have hrest : ∑ u ∈ Finset.univ.erase t, (s.pc u).weight (retries T) (w = 2) ≤
      ∑ u ∈ Finset.univ.erase t, ((s.pc u).weight (retries T) (s.word = 2) + 2) :=
    Finset.sum_le_sum fun u _ => Pc.weight_le_add_two _ _ _
  have htwo : ∑ _u ∈ Finset.univ.erase t, 2 = retries T := by
    rw [Finset.sum_const, Finset.card_erase_of_mem (Finset.mem_univ t), Finset.card_univ, retries,
      smul_eq_mul, mul_comm]
  rw [Finset.sum_add_distrib, htwo] at hrest
  rw [hs', weight_split_goto, weight_split s t, hpc]
  omega

/-- Each step is paid for. -/
theorem Step.weight_lt (h : Step s a s') : s'.weight < s.weight + a.charge (retries T) := by
  cases h with
  | callLock hpc =>
      exact weight_lt_keep (w := s.word) hpc rfl id (by simp [Pc.weight, Act.charge])
  | fastFree hpc hw =>
      refine weight_lt_keep hpc rfl (by simp [hw]) ?_
      simp only [Pc.weight, Act.charge]
      omega
  | fastBusy hpc hw =>
      refine weight_lt_any hpc rfl ?_
      simp only [Pc.weight, Act.charge]
      omega
  | slowFree hpc hw => exact weight_lt_keep hpc rfl (fun _ => rfl) (by simp [Pc.weight, Act.charge])
  | slowBusy hpc hw => exact weight_lt_keep hpc rfl (fun _ => rfl) (by simp [Pc.weight, Act.charge])
  | sleep hpc hw =>
      exact weight_lt_keep (w := s.word) hpc rfl id (by simp [Pc.weight, Act.charge, hw])
  | again hpc hw =>
      exact weight_lt_keep (w := s.word) hpc rfl id (by simp [Pc.weight, Act.charge, hw])
  | interrupt hpc =>
      exact weight_lt_keep (w := s.word) hpc rfl id (by simp [Pc.weight, Act.charge])
  | callUnlock hpc =>
      exact weight_lt_keep (w := s.word) hpc rfl id (by simp [Pc.weight, Act.charge])
  | releaseQuiet hpc hw =>
      exact weight_lt_keep hpc rfl (fun h => absurd h hw) (by simp [Pc.weight, Act.charge])
  | releaseMarked hpc hw =>
      refine weight_lt_any hpc rfl ?_
      simp only [Pc.weight, Act.charge]
      omega
  | wakeOne ht hu =>
      rename_i t u
      -- The two units that the sleeper gets are paid by the wake.
      have hne : u ≠ t := by
        rintro rfl
        rw [ht] at hu
        cases hu
      have hpay := weight_goto s t .out
      have hwake := weight_goto (s.goto t .out) u .slow
      rw [ht] at hpay
      rw [State.goto_pc, Function.update_of_ne hne, hu] at hwake
      simp only [Pc.weight, Act.charge] at hpay hwake ⊢
      omega
  | wakeNobody hpc _ =>
      exact weight_lt_keep (w := s.word) hpc rfl id (by simp [Pc.weight, Act.charge])

end

/-! ## The rounds -/

/-- In `my_unlock`. -/
def Pc.leaving : Pc → Bool
  | .release | .wake => true
  | _ => false

section

variable {T : Type} [DecidableEq T]

theorem Step.leaving_or {s s' : State T} {a : Act T} {u : T} (h : Step s a s')
    (hu : (s'.pc u).leaving) : (s.pc u).leaving ∨ a = .callUnlock u := by
  cases h with
  | callUnlock hpc =>
      rename_i t
      by_cases hut : u = t
      · exact .inr (by rw [hut])
      · exact .inl (by simpa [hut] using hu)
  | _ => left; grind [State.put_pc, Pc.leaving]

theorem Step.out_from {s s' : State T} {a : Act T} {u : T} (h : Step s a s')
    (hu : s'.pc u = .out) : s.pc u = .out ∨ (s.pc u).leaving := by
  cases h with
  | _ => grind [State.put_pc, Pc.leaving]

variable {iter : Nat} {s s' : WorkerState T} {a : WorkerAct T}

theorem leaving_invariant (iter : Nat) :
    (workers iter T).Invariant fun s => ∀ t, (s.lock.pc t).leaving → s.body t = .stored where
  start := by
    rintro s rfl t ht
    cases ht
  next := by
    intro s a s' _ ih h u hu
    cases h with
    | callLock _ _ hl => exact ih u ((hl.leaving_or hu).resolve_right (by simp))
    | lock ha hl => exact ih u ((hl.leaving_or hu).resolve_right (ha u).2)
    | load hpc hb =>
        rename_i t
        by_cases hut : u = t
        · subst hut
          simp [hpc, Pc.leaving] at hu
        · simpa [hut] using ih u hu
    | store hpc hb =>
        rename_i t v
        by_cases hut : u = t
        · subst hut
          simp [hpc, Pc.leaving] at hu
        · simpa [hut] using ih u hu
    | callUnlock hb hl =>
        rcases hl.leaving_or hu with hu' | hu'
        · exact ih u hu'
        · cases hu'
          exact hb
    | next hpc hb =>
        rename_i t
        by_cases hut : u = t
        · subst hut
          simp [hpc, Pc.leaving] at hu
        · simpa [hut] using ih u hu

/-- The thread has started the round `i`. -/
def WorkerState.started (s : WorkerState T) (t : T) : Nat :=
  if s.lock.pc t = .out ∧ s.body t ≠ .stored then 0 else 1

/-- What is left of the increment and of the round. -/
def WorkerState.bodyWeight (s : WorkerState T) (t : T) : Nat :=
  match s.body t with
  | .load => 3 * s.started t
  | .store _ => 2
  | .stored => 1

/-- Only the call of `my_lock` starts a round, and no other step of the lock ends one. -/
theorem Step.started_eq {l : State T} {b : Act T} {u : T} (h : Step s.lock b l)
    (hb : b ≠ .callLock u) (hl : (s.lock.pc u).leaving → s.body u = .stored) :
    (s.setLock l).started u = s.started u := by
  by_cases hbody : s.body u = .stored
  · simp [WorkerState.started, hbody]
  · have hout : l.pc u = .out ↔ s.lock.pc u = .out :=
      ⟨fun hu => (h.out_from hu).resolve_right fun hu => hbody (hl hu),
        fun hu => (h.out_or hu).resolve_right hb⟩
    simp [WorkerState.started, hbody, hout]

variable [Fintype T]

/-- What the rounds of a thread will cost, apart from the lock of the present one. -/
def WorkerState.loop (s : WorkerState T) (iter : Nat) (t : T) : Nat :=
  (2 * retries T + 11) * (iter - (s.i t + s.started t)) + s.bodyWeight t

/-- What all threads will cost to the end, without the interrupts. -/
def WorkerState.weight (s : WorkerState T) (iter : Nat) : Nat :=
  s.lock.weight + ∑ t, s.loop iter t

omit [DecidableEq T] in
theorem loop_congr {t : T} (hi : s'.i t = s.i t) (hbody : s'.body t = s.body t)
    (hstarted : s'.started t = s.started t) : s'.loop iter t = s.loop iter t := by
  simp only [WorkerState.loop, WorkerState.bodyWeight, hi, hbody, hstarted]

/-- A thread that moves in its body pays. -/
theorem weight_body {t : T} (hlock : s'.lock = s.lock) (hi : ∀ u, u ≠ t → s'.i u = s.i u)
    (hbody : ∀ u, u ≠ t → s'.body u = s.body u) (hloop : s'.loop iter t < s.loop iter t) :
    s'.weight iter < s.weight iter := by
  have hsum := sum_add_entry (f := s'.loop iter) (g := s.loop iter) (Finset.mem_univ t)
    fun u hu => loop_congr (hi u hu) (hbody u hu) (by
      simp only [WorkerState.started, hlock, hbody u hu])
  simp only [WorkerState.weight, hlock]
  omega

/-- Each step of a thread that does not sleep makes the weight smaller. -/
theorem weight_step (hl : ∀ t, (s.lock.pc t).leaving → s.body t = .stored)
    (h : WorkerStep iter s a s') :
    s'.weight iter < s.weight iter + if s.lock.pc a.thread = .asleep then 3 else 0 := by
  cases h with
  | callLock hbody hi hlock =>
      rename_i t l
      have hpay := hlock.weight_lt
      have hsum := sum_add_entry (f := (s.setLock l).loop iter) (g := s.loop iter)
        (Finset.mem_univ t) fun u hu =>
          loop_congr rfl rfl (hlock.started_eq (by simpa using Ne.symm hu) (hl u))
      have hround : (s.setLock l).loop iter t + (2 * retries T + 8) = s.loop iter t := by
        cases hlock with
        | callLock hpc =>
            have hleft : iter - (s.i t + 0) = iter - (s.i t + 1) + 1 := by omega
            have hbefore : s.started t = 0 := by simp [WorkerState.started, hpc, hbody]
            have hafter : (s.setLock (s.lock.goto t .fast)).started t = 1 := by
              simp [WorkerState.started]
            simp only [WorkerState.loop, WorkerState.bodyWeight, WorkerState.setLock_i,
              WorkerState.setLock_body, hbody, hbefore, hafter, hleft]
            ring
      simp only [Act.charge] at hpay
      simp only [WorkerState.weight, WorkerState.setLock_lock]
      omega
  | lock ha hlock =>
      rename_i b l
      have hpay := hlock.weight_lt
      have hcharge : b.charge (retries T) ≤
          if s.lock.pc (WorkerAct.lock b).thread = .asleep then 3 else 0 := by
        cases b with
        | callLock t => exact absurd rfl (ha t).1
        | interrupt t =>
            cases hlock with
            | interrupt hpc => simp [Act.charge, WorkerAct.thread, Act.thread, hpc]
        | _ => exact Nat.zero_le _
      have hloop : ∑ u, (s.setLock l).loop iter u = ∑ u, s.loop iter u :=
        Finset.sum_congr rfl fun u _ => loop_congr rfl rfl (hlock.started_eq (ha u).1 (hl u))
      simp only [WorkerState.weight, WorkerState.setLock_lock, hloop]
      omega
  | load hpc hbody =>
      rename_i t
      refine Nat.lt_add_right _ (weight_body (t := t) rfl (fun _ _ => rfl) (fun u hu => ?_) ?_)
      · simp [hu]
      · simp [WorkerState.loop, WorkerState.bodyWeight, WorkerState.started, hpc, hbody]
  | store hpc hbody =>
      rename_i t v
      refine Nat.lt_add_right _ (weight_body (t := t) rfl (fun _ _ => rfl) (fun u hu => ?_) ?_)
      · simp [hu]
      · simp [WorkerState.loop, WorkerState.bodyWeight, WorkerState.started, hpc, hbody]
  | callUnlock hbody hlock =>
      rename_i t l
      have hpay := hlock.weight_lt
      have hloop : ∑ u, (s.setLock l).loop iter u = ∑ u, s.loop iter u :=
        Finset.sum_congr rfl fun u _ => loop_congr rfl rfl (hlock.started_eq (by simp) (hl u))
      simp only [Act.charge] at hpay
      simp only [WorkerState.weight, WorkerState.setLock_lock, hloop]
      omega
  | next hpc hbody =>
      rename_i t
      refine Nat.lt_add_right _ (weight_body (t := t) rfl (fun u hu => ?_) (fun u hu => ?_) ?_)
      · simp [hu]
      · simp [hu]
      · simp [WorkerState.loop, WorkerState.bodyWeight, WorkerState.started, hpc, hbody]

theorem weight_init (hs : (workers iter T).init s) :
    s.weight iter = Fintype.card T * ((2 * retries T + 11) * iter) := by
  obtain rfl := hs
  simp [WorkerState.weight, State.weight, start, Pc.weight, WorkerState.loop, WorkerState.bodyWeight,
    WorkerState.started]

/-- How many steps of a run are returns from `FUTEX_WAIT` without a wake. -/
def interrupts {m : Nat} (r : Run (workers iter T) m) : Nat :=
  r.count (fun s a => s.lock.pc a.thread = .asleep) m

end

/-- Every run of the workers ends.  With `n` threads a round takes at most `4 * n + 7` steps, and each
return from `FUTEX_WAIT` without a wake three more, in whatever order the threads move. -/
theorem worker_run_bounded {n iter m : Nat} (r : Run (workers iter (Fin n)) m) :
    m ≤ n * iter * (4 * n + 7) + 3 * interrupts r := by
  have hlen := r.length_le (w := fun s => s.weight iter)
    (P := fun s a => s.lock.pc a.thread = .asleep) (c := 3) fun k hk => by
      exact weight_step ((leaving_invariant iter).reachable (r.reachable hk.le)) (r.next k hk)
  rw [weight_init r.start, Fintype.card_fin, retries, Fintype.card_fin] at hlen
  have hcost : n * ((2 * (2 * (n - 1)) + 11) * iter) = n * iter * (4 * n + 7) := by
    cases n with
    | zero => simp
    | succ n =>
        rw [Nat.add_sub_cancel]
        ring
  rwa [hcost] at hlen

end Futex
