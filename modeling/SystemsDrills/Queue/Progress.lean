import SystemsDrills.Lib.Progress
import SystemsDrills.Queue.Waiting
import SystemsDrills.Queue.Workers

/-!
# The test of the bounded buffer comes to its end

`producer`, `consumer` and `main` of `bounded_buffer.c` once more, as in `SystemsDrills.Queue.Workers`.

There is no deadlock.  If all threads that are in a call sleep, they sleep on one condition variable:
all producers on a full queue, but then the consumers have left their loops and have got all values,
or all consumers on an empty queue, but then the producers have put all values.  The numbers do not add
up in either case, since as many values are got as are put.

There is no run without end either.  Each step of a thread that does not sleep makes a weight smaller.
A signal wakes a sleeper, and has the weight for it.  What is left are the wakeups without a reason,
which may be as many as they like.
-/

namespace BoundedBuffer

open Transition Monitor

variable {p n : Nat} {s s' : TestState p} {a : TestAct p} {cap : UInt64} {q₀ : Bq}
  {h : List ((Fin p ⊕ Fin p) × Op × Option Int32)}

/-- The thread that makes the step. -/
def TestAct.thread : TestAct p → Fin p ⊕ Fin p
  | .queue b => b.thread
  | .load j | .store j => .inr j

/-- The thread sleeps in `pthread_cond_wait`. -/
def TestState.Sleeps (s : TestState p) (t : Fin p ⊕ Fin p) : Prop := ∃ op, s.queue.pc t = .asleep op

/-! ## The queue of the test -/

/-- A step of the test is a step of the queue or leaves the queue alone. -/
theorem TestStep.queue_step (h : TestStep n s a s') :
    (∃ b, Step operations s.queue b s'.queue) ∨ s'.queue = s.queue := by
  cases h with
  | callPut _ hq => exact .inl ⟨_, hq⟩
  | callGet _ _ hq => exact .inl ⟨_, hq⟩
  | inside _ _ hq => exact .inl ⟨_, hq⟩
  | retPut hq => exact .inl ⟨_, hq⟩
  | retGet hq => exact .inl ⟨_, hq⟩
  | load _ => exact .inr rfl
  | store _ => exact .inr rfl

theorem reachable_queue (hs : (test p n q₀).Reachable s) :
    (machine operations q₀).Reachable s.queue := by
  induction hs with
  | init hinit =>
      subst hinit
      exact .init rfl
  | step _ hstep ih =>
      rcases hstep.queue_step with ⟨b, hb⟩ | heq
      · exact ih.step hb
      · rw [heq]
        exact ih

/-- A get that is in its section gets a value. -/
def Gets (pending : Option ((Fin p ⊕ Fin p) × Op × Option Int32)) : Prop :=
  ∀ t r, pending = some (t, .get, r) → r.isSome

/-- A section of the queue leaves a value in the result of a get, and no other step changes the
result. -/
theorem gets_step {q q' : State (Fin p ⊕ Fin p) Bq Op Int32} {b : Act (Fin p ⊕ Fin p) Op Int32}
    (hx : q.Excl) (hd : Delivers cap q.settled h) (hg : Gets q.pending)
    (hstep : Step operations q b q') : Gets q'.pending := by
  by_cases hpass : ∃ t op, b = .pass t op
  · obtain ⟨t, op, rfl⟩ := hpass
    obtain ⟨hb, -, -, hpend⟩ := hstep.settled_pass hx
    rw [hpend]
    rintro u r heq
    obtain ⟨-, rfl, rfl⟩ := Prod.mk.injEq .. ▸ Option.some.inj heq
    exact hd.load hb
  · have hserved := (hstep.settled_eq hx fun t op he => hpass ⟨t, op, he⟩).2
    intro t r hpend
    refine hg t r ?_
    cases hb : b.served with
    | none =>
        rw [hb, Option.toList_none, List.nil_append, hpend] at hserved
        exact (Option.toList_eq_singleton_iff.mp hserved.symm)
    | some e =>
        rw [hb, hpend] at hserved
        cases hq : q.pending with
        | none => simp [hq] at hserved
        | some e' => simp [hq] at hserved

theorem gets_invariant (hn : p * n ≤ 2 ^ 31) (h0 : Delivers (T := Fin p ⊕ Fin p) cap q₀ []) :
    (test p n q₀).Invariant fun s => Gets s.queue.pending where
  start := by
    rintro s rfl t r hpend
    cases hpend
  next s a s' hs hg hstep := by
    obtain ⟨h, hi⟩ := (inv_invariant hn h0).reachable hs
    rcases hstep.queue_step with ⟨b, hb⟩ | heq
    · exact gets_step hi.excl hi.delivers hg hb
    · rw [heq]
      exact hg

/-! ## How many values were put and got -/

theorem TestState.Rounds.length_puts (hr : s.Rounds n h) :
    (puts h).length = ∑ id : Fin p, (s.i (.inl id) + s.busy (.inl id)) := by
  rw [hr.puts_perm.length_eq, List.length_flatMap, Fin.sum_univ_def]
  simp

theorem TestState.Inv.length_gets (hi : s.Inv cap n h) :
    (gets h).length = ∑ j : Fin p, (s.i (.inr j) + s.busy (.inr j) + (s.body j).owes) := by
  have hparts := ((perm_parts h).filterMap gotValue).length_eq
  rw [List.filterMap_append, List.filterMap_flatMap, List.filterMap_flatMap] at hparts
  have hput : ∀ id : Fin p, (h.filter (·.1 = .inl id)).filterMap gotValue = [] := by
    intro id
    refine List.filterMap_eq_nil_iff.mpr fun e he => ?_
    obtain ⟨v, hop⟩ := hi.rounds.op_producer he
    obtain ⟨t, op, r⟩ := e
    obtain rfl : op = .put v := hop
    rfl
  have hget : ∀ j : Fin p, ((h.filter (·.1 = .inr j)).filterMap gotValue).length =
      s.i (.inr j) + s.busy (.inr j) + (s.body j).owes := by
    intro j
    have hlen := congrArg List.length (hi.rounds.consumer j)
    rw [List.length_replicate, List.length_map] at hlen
    refine (BoundedBuffer.length_gets (fun e he => hi.rounds.op_consumer he) fun e he => ?_).trans hlen
    exact hi.delivers.got e (List.mem_filter.mp he).1 (hi.rounds.op_consumer he)
  simp only [hput, hget, List.length_append, List.length_flatMap] at hparts
  rw [gets, hparts, Fin.sum_univ_def]
  simp

/-! ## No deadlock -/

/-- A move of the queue by a thread that is in a call is a move of the test. -/
theorem exists_testStep (hi : s.Inv cap n h) (hg : Gets s.queue.pending)
    {q : State (Fin p ⊕ Fin p) Bq Op Int32} {b : Act (Fin p ⊕ Fin p) Op Int32}
    (hb : Step operations s.queue b q) (hawake : (s.queue.pc b.thread).Awake) :
    ∃ s', TestStep n s (.queue b) s' := by
  cases b with
  | call t op =>
      cases hb with
      | call hpc => simp [Act.thread, hpc, Pc.Awake] at hawake
  | ret t op r =>
      cases t with
      | inl id => exact ⟨_, .retPut hb⟩
      | inr j =>
          obtain ⟨hpend, -⟩ := hb.pending_ret hi.excl
          obtain ⟨rfl, -⟩ := hi.rounds.calls _ op hb.ret_op.1
          obtain ⟨v, rfl⟩ := Option.isSome_iff_exists.mp (hg _ r hpend)
          exact ⟨_, .retGet hb⟩
  | step t => exact ⟨_, .inside (by simp) (by simp) hb⟩
  | pass t op => exact ⟨_, .inside (by simp) (by simp) hb⟩
  | refused t op => exact ⟨_, .inside (by simp) (by simp) hb⟩

/-- A thread that has not finished and does not sleep can move, or it waits for one that can. -/
theorem exists_step_of_not_finished (hi : s.Inv cap n h) (hg : Gets s.queue.pending)
    {t : Fin p ⊕ Fin p} (hf : ¬ s.Finished n t) (ht : ¬ s.Sleeps t) :
    ∃ a s', TestStep n s a s' ∧ ¬ s.Sleeps a.thread := by
  by_cases hidle : s.queue.pc t = .idle
  · cases t with
    | inl id =>
        have hlt : s.i (.inl id) < n := by
          by_contra hlt
          exact hf ⟨hidle, hlt, fun j hj => nomatch hj⟩
        exact ⟨_, _, .callPut hlt (.call hidle), ht⟩
    | inr j =>
        cases hbody : s.body j with
        | out =>
            have hlt : s.i (.inr j) < n := by
              by_contra hlt
              refine hf ⟨hidle, hlt, fun j' hj => ?_⟩
              rw [← Sum.inr.inj hj]
              exact hbody
            exact ⟨_, _, .callGet hbody hlt (.call hidle), ht⟩
        | load v => exact ⟨_, _, .load hbody, ht⟩
        | store v x => exact ⟨_, _, .store hbody, ht⟩
  · have hawake : (s.queue.pc t).Awake := by
      cases hpc : s.queue.pc t with
      | idle => exact absurd hpc hidle
      | asleep op => exact absurd ⟨op, hpc⟩ ht
      | _ => trivial
    obtain ⟨b, q, hb, hu⟩ := exists_step_of_awake (M := operations) hi.excl hawake
    obtain ⟨s', hs'⟩ := exists_testStep hi hg hb hu
    refine ⟨_, s', hs', ?_⟩
    rintro ⟨op, hop⟩
    rw [show (TestAct.queue b).thread = b.thread from rfl] at hop
    simp [hop, Pc.Awake] at hu

theorem queue_init {malloc : UInt64 → Option (List Int32)} (hq : bqInit malloc cap = some q₀) :
    queue.items q₀ ≤ queue.cap q₀ ∧ 0 < queue.cap q₀ := by
  obtain ⟨hpos, -, heq⟩ := bqInit_eq_some hq
  rw [heq]
  exact ⟨Nat.zero_le _, hpos⟩

/-- The threads that have not finished sleep. -/
def TestState.Stuck (s : TestState p) (n : Nat) : Prop := ∀ t, s.Finished n t ∨ s.Sleeps t

namespace TestState.Stuck

variable (hstuck : s.Stuck n)
include hstuck

theorem all_asleep (t : Fin p ⊕ Fin p) : s.queue.pc t = .idle ∨ ∃ op, s.queue.pc t = .asleep op :=
  (hstuck t).imp And.left id

theorem free (hi : s.Inv cap n h) : s.queue.mutex = none := by
  cases hm : s.queue.mutex with
  | none => rfl
  | some t =>
      have hholds := (hi.excl t).mpr hm
      rcases hstuck.all_asleep t with hpc | ⟨op, hpc⟩
      · simp [hpc, Pc.Holds] at hholds
      · simp [hpc, Pc.Holds] at hholds

/-- The values are all put, or got, or in the queue. -/
theorem lengths (hi : s.Inv cap n h) :
    ∑ id : Fin p, s.i (.inl id) = ∑ j : Fin p, (s.i (.inr j) + (s.body j).owes) +
      s.queue.data.count.toNat := by
  have hfree := hstuck.free hi
  have hbusy : ∀ t, s.busy t = 0 := fun t => by simp [busy, State.pending_of_free hfree]
  have hputs := hi.rounds.length_puts
  have hgets := hi.length_gets
  have hd := hi.delivers
  rw [State.settled_of_free hfree] at hd
  obtain ⟨vs, hvs, hall⟩ := hd.holds
  simp only [hbusy, Nat.add_zero] at hputs hgets
  rw [← hputs, ← hgets, hvs.count, ← List.length_append, hall]

/-- A consumer that does not sleep has made all its rounds. -/
theorem consumer_eq (hi : s.Inv cap n h) {j : Fin p} (hj : ¬ s.Sleeps (.inr j)) :
    s.i (.inr j) + (s.body j).owes = n := by
  obtain ⟨-, hle, hbody⟩ := (hstuck (.inr j)).resolve_right hj
  rw [hbody j rfl, Body.owes]
  exact le_antisymm (hi.rounds.le _) (not_lt.mp hle)

theorem producer_eq (hi : s.Inv cap n h) {id : Fin p} (hid : ¬ s.Sleeps (.inl id)) :
    s.i (.inl id) = n :=
  le_antisymm (hi.rounds.le _) (not_lt.mp ((hstuck (.inl id)).resolve_right hid).2.1)

variable {malloc : UInt64 → Option (List Int32)} (hq : bqInit malloc cap = some q₀)
  (hs : (test p n q₀).Reachable s) (hi : s.Inv cap n h)
include hq hs hi

/-- No producer sleeps: it would sleep on a full queue, and all consumers would have finished. -/
theorem producer_awake (id : Fin p) : ¬ s.Sleeps (.inl id) := by
  rintro ⟨op, hsleep⟩
  obtain ⟨h0, hcap⟩ := queue_init hq
  have hr := reachable_queue hs
  obtain ⟨rfl, -⟩ := hi.rounds.calls _ op (by rw [hsleep]; rfl)
  have hfull : s.queue.data.count = s.queue.data.cap :=
    Queue.blocked_of_all_asleep h0 hr hstuck.all_asleep hsleep
  have hconsumers : ∀ j : Fin p, s.i (.inr j) + (s.body j).owes = n := by
    refine fun j => hstuck.consumer_eq hi ?_
    rintro ⟨op, hj⟩
    obtain ⟨rfl, -⟩ := hi.rounds.calls _ op (by rw [hj]; rfl)
    exact Queue.one_kind_of_all_asleep h0 hr hcap hstuck.all_asleep hsleep hj rfl rfl
  have hlengths := hstuck.lengths hi
  have hle : ∑ id : Fin p, s.i (.inl id) ≤ ∑ _id : Fin p, n :=
    Finset.sum_le_sum fun id _ => hi.rounds.le (.inl id)
  have hd := hi.delivers.cap_eq
  rw [State.settled_of_free (hstuck.free hi)] at hd
  rw [hfull, hd, Finset.sum_congr rfl fun j _ => hconsumers j] at hlengths
  have hpos := (bqInit_eq_some hq).1
  omega

/-- No consumer sleeps: it would sleep on an empty queue, and all producers would have finished. -/
theorem consumer_awake (j : Fin p) : ¬ s.Sleeps (.inr j) := by
  rintro ⟨op, hsleep⟩
  obtain ⟨h0, -⟩ := queue_init hq
  obtain ⟨rfl, hlt, hout⟩ := hi.rounds.calls _ op (by rw [hsleep]; rfl)
  have hempty : s.queue.data.count = 0 :=
    Queue.blocked_of_all_asleep h0 (reachable_queue hs) hstuck.all_asleep hsleep
  have hlengths := hstuck.lengths hi
  have hproducers : ∀ id : Fin p, s.i (.inl id) = n := fun id =>
    hstuck.producer_eq hi (hstuck.producer_awake hq hs hi id)
  have hless : ∑ j : Fin p, (s.i (.inr j) + (s.body j).owes) < ∑ _j : Fin p, n := by
    refine Finset.sum_lt_sum (fun j' _ => ?_) ⟨j, Finset.mem_univ j, ?_⟩
    · by_cases hout' : s.body j' = .out
      · rw [hout']
        exact hi.rounds.le _
      · have := hi.rounds.owing j' hout'
        cases hb : s.body j' <;> simp only [Body.owes] <;> omega
    · rw [hout]
      exact hlt
  rw [hempty, Finset.sum_congr rfl fun id _ => hproducers id] at hlengths
  simp only [UInt64.toNat_zero] at hlengths
  omega

end TestState.Stuck

/-- The test does not deadlock.  In whatever order the threads move, and whatever capacity the queue
has, as long as some thread has not left its loop there is a thread that can move without a wakeup
for no reason. -/
theorem test_no_deadlock {malloc : UInt64 → Option (List Int32)} (hq : bqInit malloc cap = some q₀)
    (hbuf : q₀.buf.length = cap.toNat) (hn : p * n ≤ 2 ^ 31) (hs : (test p n q₀).Reachable s)
    (hf : ¬ ∀ t, s.Finished n t) : ∃ a s', TestStep n s a s' ∧ ¬ s.Sleeps a.thread := by
  have h0 : Delivers (T := Fin p ⊕ Fin p) cap q₀ [] := delivers_init hq hbuf
  obtain ⟨h, hi⟩ := (inv_invariant hn h0).reachable hs
  have hg := (gets_invariant hn h0).reachable hs
  by_contra hnone
  have hstuck : s.Stuck n := by
    intro t
    by_contra ht
    obtain ⟨hft, hst⟩ := not_or.mp ht
    exact hnone (exists_step_of_not_finished hi hg hft hst)
  refine hf fun t => (hstuck t).resolve_right ?_
  cases t with
  | inl id => exact hstuck.producer_awake hq hs hi id
  | inr j => exact hstuck.consumer_awake hq hs hi j

/-- One producer and one consumer, which sleeps on the empty queue. -/
theorem test_no_deadlock_waiting :
    ∃ s, (test 1 1 ⟨[0], 0, 0, 0, 1⟩).Reachable s ∧ s.Sleeps (.inr 0) ∧
      ∃ a s', TestStep 1 s a s' ∧ ¬ s.Sleeps a.thread := by
  let S := test 1 1 ⟨[0], 0, 0, 0, 1⟩
  have inside : ∀ {s a q}, S.Reachable s → Step operations s.queue a q →
      (∀ t op, a ≠ .call t op) → (∀ t op r, a ≠ .ret t op r) → S.Reachable (s.setQueue q) :=
    fun hs hq hcall hret => hs.step (.inside hcall hret hq)
  have h0 : S.Reachable ⟨⟨⟨[0], 0, 0, 0, 1⟩, none, fun _ => .idle⟩, fun _ => 0, fun _ => 0,
    fun _ => .out⟩ := .init rfl
  have h1 := h0.step (.callGet (j := 0) rfl (by decide) (.call rfl))
  have h2 := inside h1 (.lock (t := .inr 0) rfl rfl) (by simp) (by simp)
  have h3 := inside h2 (.wait (t := .inr 0) (show _ = Pc.test Op.get from rfl) rfl rfl) (by simp) (by simp)
  have hq : bqInit (fun _ => some [0]) 1 = some ⟨[0], 0, 0, 0, 1⟩ := rfl
  refine ⟨_, h3, ⟨_, rfl⟩, test_no_deadlock hq rfl (by norm_num) h3 fun hf => ?_⟩
  exact absurd (hf (.inr 0)).1 (by simp)

/-! ## Every run ends -/

/-- The thread is in a call. -/
def TestState.inCall (s : TestState p) (t : Fin p ⊕ Fin p) : Nat :=
  match (s.queue.pc t).op with
  | none => 0
  | some _ => 1

/-- The moves to the end of the body. -/
def Body.weight : Body → Nat
  | .out => 0
  | .load _ => 2
  | .store _ _ => 1

/-- What the rounds that the thread has not started will cost, and the load and the store of the
present one. -/
def TestState.loop (s : TestState p) (n : Nat) : Fin p ⊕ Fin p → Nat
  | .inl id => 10 * (n - (s.i (.inl id) + s.inCall (.inl id)))
  | .inr j => 12 * (n - (s.i (.inr j) + s.inCall (.inr j) + (s.body j).owes)) +
      2 * s.inCall (.inr j) + (s.body j).weight

/-- What all threads will cost to the end, without the wakeups for no reason. -/
def TestState.weight (s : TestState p) (n : Nat) : Nat :=
  s.queue.weight 3 + ∑ t, s.loop n t

theorem sum_loop {t : Fin p ⊕ Fin p} (hne : ∀ u, u ≠ t → s'.loop n u = s.loop n u) {k : Nat}
    (hk : s'.loop n t + k = s.loop n t) : ∑ u, s'.loop n u + k = ∑ u, s.loop n u := by
  have hsum := sum_add_entry (Finset.mem_univ t) hne
  omega

theorem length_body (op : Op) : (operations.body op).length ≤ 3 := by
  cases op with
  | put v => exact le_rfl
  | get => exact le_rfl

/-- A thread whose call, loop variable and body are the same. -/
theorem loop_congr {t : Fin p ⊕ Fin p} (hop : (s'.queue.pc t).op = (s.queue.pc t).op)
    (hi : s'.i t = s.i t) (hbody : ∀ j, t = .inr j → s'.body j = s.body j) :
    s'.loop n t = s.loop n t := by
  cases t with
  | inl id => simp only [TestState.loop, TestState.inCall, hop, hi]
  | inr j => simp only [TestState.loop, TestState.inCall, hop, hi, hbody j rfl]

instance decidableSleeps : Decidable (s.Sleeps t) :=
  match h : s.queue.pc t with
  | .asleep op => .isTrue ⟨op, h⟩
  | .idle | .lock _ | .test _ | .woken _ | .body _ _ _ | .unlock _ _ | .refuse _ =>
      .isFalse fun ⟨_, h'⟩ => nomatch h.symm.trans h'

/-- A call starts a round. -/
theorem weight_call {t : Fin p ⊕ Fin p} {op : Op} {q : State (Fin p ⊕ Fin p) Bq Op Int32}
    (hlt : s.i t < n) (hout : ∀ j, t = .inr j → s.body j = .out)
    (hq : Step operations s.queue (.call t op) q) : (s.setQueue q).weight n < s.weight n := by
  have hw := hq.weight_lt length_body
  cases hq with
  | call hpc =>
      have hloop : ∑ u, (s.setQueue (s.queue.goto t (.lock op))).loop n u + 10 = ∑ u, s.loop n u := by
        refine sum_loop (t := t) (fun u hu => ?_) ?_
        · exact loop_congr (by simp [hu]) rfl fun _ _ => rfl
        · cases t with
          | inl id =>
              simp only [TestState.loop, TestState.inCall, TestState.setQueue_queue,
                TestState.setQueue_i, State.goto_pc, Function.update_self, hpc, Pc.op]
              omega
          | inr j =>
              simp only [TestState.loop, TestState.inCall, TestState.setQueue_queue,
                TestState.setQueue_i, TestState.setQueue_body, State.goto_pc, Function.update_self,
                hpc, Pc.op, hout j rfl, Body.owes, Body.weight]
              omega
      simp only [Act.thread, hpc, Pc.charge] at hw
      simp only [TestState.weight, TestState.setQueue_queue]
      omega

/-- A move inside of a call. -/
theorem weight_inside {b : Act (Fin p ⊕ Fin p) Op Int32} {q : State (Fin p ⊕ Fin p) Bq Op Int32}
    (hrefuse : ∀ t op, s.queue.pc t ≠ .refuse op) (hcall : ∀ t op, b ≠ .call t op)
    (hret : ∀ t op r, b ≠ .ret t op r) (hq : Step operations s.queue b q) :
    (s.setQueue q).weight n < s.weight n + if s.Sleeps b.thread then 3 else 0 := by
  have hw := hq.weight_lt length_body
  have hrefused : ∀ t op, b ≠ .refused t op := by
    rintro t op rfl
    cases hq with
    | refuse hpc => exact hrefuse t op hpc
  have hloop : ∑ u, (s.setQueue q).loop n u = ∑ u, s.loop n u :=
    Finset.sum_congr rfl fun u _ =>
      loop_congr (hq.op_eq hcall hret hrefused u) rfl fun _ _ => rfl
  have hcharge : (s.queue.pc b.thread).charge 3 = if s.Sleeps b.thread then 3 else 0 := by
    split
    case isTrue hsleep =>
      obtain ⟨op, hpc⟩ := hsleep
      rw [hpc]
      rfl
    case isFalse hsleep => exact hq.charge_eq_zero hcall fun op hpc => hsleep ⟨op, hpc⟩
  rw [hcharge] at hw
  simp only [TestState.weight, hloop, TestState.setQueue_queue]
  omega

/-- Only one thread leaves its call. -/
theorem op_of_ret {q q' : State (Fin p ⊕ Fin p) Bq Op Int32} {t : Fin p ⊕ Fin p} {op : Op}
    {r : Option Int32} (hq : Step operations q (.ret t op r) q') :
    (q.pc t).op = some op ∧ (q'.pc t).op = none ∧ ∀ u, u ≠ t → (q'.pc u).op = (q.pc u).op := by
  refine ⟨hq.ret_op.1, hq.ret_op.2, fun u hu => ?_⟩
  cases hq with
  | unlock hpc => simp [hu]

/-- A call returns. -/
theorem weight_ret (s' : TestState p) {t : Fin p ⊕ Fin p} {op : Op} {r : Option Int32}
    {q : State (Fin p ⊕ Fin p) Bq Op Int32} (hq : Step operations s.queue (.ret t op r) q)
    (hqueue : s'.queue = q) (hne : ∀ u, u ≠ t → s'.loop n u = s.loop n u)
    (hloop : s'.loop n t = s.loop n t) : s'.weight n < s.weight n := by
  have hw := hq.weight_lt length_body
  have hsum : ∑ u, s'.loop n u = ∑ u, s.loop n u := sum_loop (k := 0) hne hloop
  cases hq with
  | unlock hpc =>
      simp only [Act.thread, hpc, Pc.charge] at hw
      simp only [TestState.weight, hqueue, hsum]
      omega

/-- A consumer moves in its body. -/
theorem weight_body {j : Fin p} (hqueue : s'.queue = s.queue)
    (hi : ∀ u, u ≠ .inr j → s'.i u = s.i u) (hbody : ∀ j', j' ≠ j → s'.body j' = s.body j')
    (hloop : s'.loop n (.inr j) + 1 = s.loop n (.inr j)) : s'.weight n < s.weight n := by
  have hsum : ∑ u, s'.loop n u + 1 = ∑ u, s.loop n u := by
    refine sum_loop (fun u hu => ?_) hloop
    refine loop_congr (by rw [hqueue]) (hi u hu) fun j' hj' => hbody j' fun e => hu ?_
    rw [hj', e]
  simp only [TestState.weight, hqueue]
  omega

/-- Each move of a thread that does not sleep makes the weight smaller. -/
theorem weight_step (hr : s.Rounds n h) (hrefuse : ∀ t op, s.queue.pc t ≠ .refuse op)
    (hstep : TestStep n s a s') :
    s'.weight n < s.weight n + if s.Sleeps a.thread then 3 else 0 := by
  cases hstep with
  | callPut hlt hq =>
      have := weight_call hlt (fun j hj => nomatch hj) hq
      omega
  | callGet hout hlt hq =>
      have := weight_call hlt (fun j hj => Sum.inr.inj hj ▸ hout) hq
      omega
  | inside hcall hret hq => exact weight_inside hrefuse hcall hret hq
  | retPut hq =>
      rename_i op r q id
      obtain ⟨hop, hnone, hne⟩ := op_of_ret hq
      refine Nat.lt_add_right _ (weight_ret _ hq rfl (fun u hu => ?_) ?_)
      · exact loop_congr (hne u hu) (by simp [hu]) fun _ _ => rfl
      · simp [TestState.loop, TestState.inCall, hop, hnone]
  | retGet hq =>
      rename_i op v q j
      obtain ⟨hop, hnone, hne⟩ := op_of_ret hq
      have hout := (hr.calls _ op hop).2.2
      refine Nat.lt_add_right _ (weight_ret _ hq rfl (fun u hu => ?_) ?_)
      · refine loop_congr (hne u hu) rfl fun j' hj' => ?_
        have hj : j' ≠ j := fun e => hu (by rw [hj', e])
        simp [hj]
      · simp [TestState.loop, TestState.inCall, hop, hnone, hout, Body.owes, Body.weight]
  | load hbody =>
      rename_i j v
      refine Nat.lt_add_right _ (weight_body (j := j) rfl (fun u hu => rfl) (fun j' hj => ?_) ?_)
      · simp [hj]
      · simp [TestState.loop, TestState.inCall, hbody, Body.owes, Body.weight]
  | store hbody =>
      rename_i j v x
      refine Nat.lt_add_right _ (weight_body (j := j) rfl (fun u hu => ?_) (fun j' hj => ?_) ?_)
      · simp [hu]
      · simp [hj]
      · have hcall : ∀ t, (((s.setSeen v (x + 1)).setBody j .out).setI (.inr j)
            (s.i (.inr j) + 1)).inCall t = s.inCall t := fun _ => rfl
        simp only [TestState.loop, hcall, TestState.setI_i, TestState.setI_body,
          TestState.setBody_body, Function.update_self, hbody, Body.owes, Body.weight]
        omega

theorem weight_init (hs : (test p n q₀).init s) : s.weight n = 22 * (p * n) := by
  obtain rfl := hs
  have hcost : 22 * (p * n) = p * (10 * n) + p * (12 * n) := by ring
  rw [hcost]
  simp [TestState.weight, State.weight, Pc.weight, Fintype.sum_sum_type, TestState.loop,
    TestState.inCall, Pc.op, Body.owes, Body.weight]

/-- How many moves of a run are wakeups for no reason. -/
def wakeups {m : Nat} (r : Run (test p n q₀) m) : Nat :=
  r.count (fun s a => s.Sleeps a.thread) m

/-- Every run ends.  A run has at most ten moves for each value that is put and twelve for each that
is got, and three more for each wakeup for no reason, whatever the capacity and the order of the
moves. -/
theorem test_run_bounded {malloc : UInt64 → Option (List Int32)} (hq : bqInit malloc cap = some q₀)
    (hbuf : q₀.buf.length = cap.toNat) (hn : p * n ≤ 2 ^ 31) {m : Nat}
    (r : Run (test p n q₀) m) : m ≤ 22 * (p * n) + 3 * wakeups r := by
  have hlen := r.length_le (w := fun s => s.weight n) (P := fun s a => s.Sleeps a.thread) (c := 3)
    fun k hk => by
      have hs := r.reachable hk.le
      obtain ⟨h, hi⟩ := (inv_invariant hn (delivers_init hq hbuf)).reachable hs
      have hrefuse := (waits_invariant (M := operations) fun _ => rfl).reachable (reachable_queue hs)
      exact weight_step hi.rounds hrefuse (r.next k hk)
  rwa [weight_init r.start] at hlen

/-- A consumer sleeps on the empty queue, wakes for no reason and sleeps again. -/
theorem test_run_bounded_spurious :
    ∃ r : Run (test 1 1 ⟨[0], 0, 0, 0, 1⟩) 4, wakeups r = 1 ∧ 4 ≤ 22 * (1 * 1) + 3 * wakeups r := by
  let t : Fin 1 ⊕ Fin 1 := .inr 0
  let s0 : TestState 1 := ⟨⟨⟨[0], 0, 0, 0, 1⟩, none, fun _ => .idle⟩, fun _ => 0, fun _ => 0,
    fun _ => .out⟩
  let s1 := s0.setQueue (s0.queue.goto t (.lock .get))
  let s2 := s1.setQueue ((s1.queue.setMutex (some t)).goto t (.test .get))
  let s3 := s2.setQueue ((s2.queue.setMutex none).goto t (.asleep .get))
  let s4 := s3.setQueue (s3.queue.goto t (.woken .get))
  let act (k : Nat) : TestAct 1 := if k = 0 then .queue (.call t .get) else .queue (.step t)
  have next : ∀ k, k < 4 →
      TestStep 1 ([s0, s1, s2, s3].getD k s4) (act k) ([s0, s1, s2, s3].getD (k + 1) s4) := by
    intro k hk
    interval_cases k
    · exact .callGet (j := 0) rfl (by decide) (.call rfl)
    · exact .inside (by simp) (by simp) (.lock (t := t) rfl rfl)
    · exact .inside (by simp) (by simp) (.wait (t := t) (show _ = Pc.test Op.get from rfl) rfl rfl)
    · exact .inside (by simp) (by simp) (.spurious (t := t) rfl)
  let r : Run (test 1 1 ⟨[0], 0, 0, 0, 1⟩) 4 := ⟨fun k => [s0, s1, s2, s3].getD k s4, act, rfl, next⟩
  have hq : bqInit (fun _ => some [0]) 1 = some ⟨[0], 0, 0, 0, 1⟩ := rfl
  exact ⟨r, rfl, test_run_bounded hq rfl (by norm_num) r⟩

end BoundedBuffer
