import SystemsDrills.LockLogger.Conservation

/-!
# The logger over whole runs

Exclusion and conservation hold at every moment of every run.  A worker that has finished
has made all its entries and has staged nothing, so when all have finished the log is what
they made.
-/

namespace LockLogger

open Transition

variable {ncpu : Nat}

theorem kept_start {s : State ncpu} (h : (machine ncpu).init s) : s.Kept [] := by
  obtain ⟨hcount, -, hw⟩ := h
  have hcopy : ∀ c, (s.workers c).pc.isCopying = false := by
    intro c
    rw [(hw c).1]
    rfl
  have hlog : s.log = [] := by
    rw [State.log, written_of_not_copying hcopy, hcount]
    rfl
  refine ⟨fun c => ?_, fun c => ?_, by simp [hlog], by simp⟩
  · obtain ⟨hpc, hi, hn⟩ := hw c
    refine ⟨by simp [hn], fun _ => ?_, by simp [hpc, hi, Pc.round, mine], Nat.zero_le _, ?_, ?_, ?_⟩
    · rw [hn]
      decide
    · simp [hpc, Pc.Drains]
    · rw [hpc]
      trivial
    · simp [hpc]
  · obtain ⟨hpc, -, hn⟩ := hw c
    rw [hlog, Worker.unflushed, hpc]
    simp [Worker.staged, hn, ofCpu, mine]

section Runs

variable {n : Nat} (r : Run (machine ncpu) n)

theorem exclusive_run {k : Nat} (hk : k ≤ n) : (r.st k).Exclusive :=
  r.induct_from (exclusive_start r.start) (fun _ _ _ h hx => exclusive_step hx h) (Nat.zero_le k) hk

theorem kept_run (hcap : ncpu * entriesPerCpu ≤ logCapacity) {k : Nat} (hk : k ≤ n) :
    (r.st k).Kept (r.seen Act.made k) := by
  refine r.induct_from (P := fun k => (r.st k).Kept (r.seen Act.made k)) (kept_start r.start)
    (fun k _ hk h ih => ?_) (Nat.zero_le k) hk
  rw [Run.seen_succ]
  exact kept_next hcap (exclusive_run r (by omega)) ih h

end Runs

theorem loop_of_make {s s' : State ncpu} {c : Fin ncpu} {e : Entry} (h : Step s (.make c e) s') :
    (s.workers c).pc = .loop := by
  cases h with
  | make hpc _ _ => exact hpc

/-! ## The end -/

section End

variable {s : State ncpu} {made : List (Fin ncpu × Entry)} (hk : s.Kept made)
  (hdone : ∀ c, (s.workers c).pc = .done)
include hk hdone

/-- A worker that has finished has made all its entries. -/
theorem State.Kept.length_mine (c : Fin ncpu) : (mine c made).length = entriesPerCpu := by
  have hf := hk.fits c
  have hi : (s.workers c).i = entriesPerCpu := hf.drains (by rw [hdone c]; trivial)
  rw [hf.rounds, hdone c, hi]
  rfl

omit hk in
theorem log_of_done : s.log = (List.range s.g_count).map s.g_log := by
  rw [State.log, written_of_not_copying fun c => by rw [hdone c]; rfl]

theorem State.Kept.ofCpu_log (c : Fin ncpu) :
    ofCpu c ((List.range s.g_count).map s.g_log) = mine c made := by
  have h := hk.kept c
  rwa [Worker.unflushed, hdone c, List.append_nil, log_of_done hdone] at h

variable (hcap : ncpu * entriesPerCpu ≤ logCapacity)
include hcap

theorem State.Kept.log_perm :
    ((List.range s.g_count).map s.g_log).Perm (made.map Prod.snd) := by
  have h := hk.perm hcap
  have hnone : (List.finRange ncpu).flatMap (fun c => (s.workers c).unflushed) = [] := by
    refine List.flatMap_eq_nil_iff.mpr fun c _ => ?_
    rw [Worker.unflushed, hdone c]
  rwa [hnone, List.append_nil, log_of_done hdone] at h

theorem State.Kept.g_count_eq : s.g_count = ncpu * entriesPerCpu := by
  have hlog := (hk.log_perm hdone hcap).length_eq
  rw [List.length_map, List.length_range, List.length_map] at hlog
  have hparts := (perm_flatMap_filter Prod.fst made (List.nodup_finRange ncpu)
    fun x _ => List.mem_finRange x.1).length_eq
  have hlen : ∀ c, (made.filter (·.1 = c)).length = entriesPerCpu := by
    intro c
    rw [← hk.length_mine hdone c, mine, List.length_map]
  rw [hlog, hparts, List.length_flatMap]
  simp [hlen]

end End

/-! ## No worker waits for ever on the others -/

/-- Who takes a step. -/
def Act.cpu : Act ncpu → Fin ncpu
  | .make c _ | .step c => c

/-- A worker that has not finished and does not sleep can step. -/
theorem exists_step_of_awake {s : State ncpu} {c : Fin ncpu} (hdone : (s.workers c).pc ≠ .done)
    (hawake : ∀ drain, (s.workers c).pc ≠ .asleep drain) :
    ∃ a s', Step s a s' ∧ a.cpu = c := by
  cases hpc : (s.workers c).pc with
  | loop =>
      by_cases hi : (s.workers c).i < entriesPerCpu
      · exact ⟨.make c (makeEntry 0 c), _, .make hpc hi rfl, rfl⟩
      · by_cases hn : (s.workers c).n = 0
        · exact ⟨.step c, _, .loopDone hpc hi hn, rfl⟩
        · exact ⟨.step c, _, .loopDrain hpc hi hn, rfl⟩
  | tryBegin =>
      by_cases hbusy : s.g_busy = 0
      · exact ⟨.step c, _, .tryFree hpc hbusy, rfl⟩
      · exact ⟨.step c, _, .tryBusy hpc hbusy, rfl⟩
  | refused =>
      by_cases hn : (s.workers c).n = localCap
      · exact ⟨.step c, _, .full hpc hn, rfl⟩
      · exact ⟨.step c, _, .overlap hpc hn, rfl⟩
  | wait drain =>
      by_cases hbusy : s.g_busy = 0
      · exact ⟨.step c, _, .claim hpc hbusy, rfl⟩
      · exact ⟨.step c, _, .sleep hpc hbusy, rfl⟩
  | asleep drain => exact absurd hpc (hawake drain)
  | flushTest drain k =>
      by_cases hgo : k < (s.workers c).n ∧ s.g_count < logCapacity
      · exact ⟨.step c, _, .flushGo hpc hgo, rfl⟩
      · exact ⟨.step c, _, .flushExit hpc hgo, rfl⟩
  | flushLoad drain k => exact ⟨.step c, _, .flushLoad hpc, rfl⟩
  | flushStore drain k slot => exact ⟨.step c, _, .flushStore hpc, rfl⟩
  | flushCopy drain k slot => exact ⟨.step c, _, .flushCopy hpc, rfl⟩
  | endWrite drain => exact ⟨.step c, _, .endWrite hpc, rfl⟩
  | done => exact absurd hpc hdone

/-- As long as a worker has not finished, some worker can step, and not only a sleeper that
wakes for no reason. -/
theorem exists_step {s : State ncpu} (hx : s.Exclusive) {c : Fin ncpu}
    (hdone : (s.workers c).pc ≠ .done) :
    ∃ a s', Step s a s' ∧ ∀ drain, (s.workers a.cpu).pc ≠ .asleep drain := by
  by_cases hawake : ∀ drain, (s.workers c).pc ≠ .asleep drain
  · obtain ⟨a, s', h, ha⟩ := exists_step_of_awake hdone hawake
    exact ⟨a, s', h, ha ▸ hawake⟩
  · -- A sleeper waits for the owner, who does not sleep.
    push Not at hawake
    obtain ⟨drain, hc⟩ := hawake
    obtain ⟨d, hd⟩ := hx.busy.mp (hx.awake c drain hc)
    have hawake : ∀ drain, (s.workers d).pc ≠ .asleep drain := by
      intro drain h
      simp [h, Pc.Owns] at hd
    have hdone : (s.workers d).pc ≠ .done := by
      intro h
      simp [h, Pc.Owns] at hd
    obtain ⟨a, s', h, ha⟩ := exists_step_of_awake hdone hawake
    exact ⟨a, s', h, ha ▸ hawake⟩

/-! ## Workers that are not disturbed -/

/-- The worker is at this place, with these locals. -/
structure Worker.At (w : Worker) (pc : Pc) (i n : Nat) (overlapped slept : UInt32) : Prop where
  pc : w.pc = pc
  i : w.i = i
  n : w.n = n
  overlapped : w.overlapped = overlapped
  slept : w.slept = slept

theorem Worker.wake_of_awake {w : Worker} (h : ∀ drain, w.pc ≠ .asleep drain) : w.wake = w := by
  rw [wake]
  split
  · next drain hpc => exact absurd hpc (h drain)
  · rfl

theorem Worker.At.awake {w : Worker} {pc : Pc} {i n : Nat} {overlapped slept : UInt32}
    (h : w.At pc i n overlapped slept) (hpc : ∀ drain, pc ≠ .asleep drain) (drain : Bool) :
    w.pc ≠ .asleep drain := by
  rw [h.pc]
  exact hpc drain

section Undisturbed

variable {s : State ncpu} {c : Fin ncpu} {i j n k : Nat} {overlapped slept : UInt32} {drain : Bool}

/-- The copy loop of `flush`, from entry `k` on. -/
theorem exec_copies {m : Nat} (hpc : (s.workers c).pc = .flushTest drain k)
    (hm : k + m = (s.workers c).n) (hroom : s.g_count + m ≤ logCapacity) :
    ∃ s' as, (machine ncpu).Exec s as s' ∧
      s'.workers = Function.update s.workers c ((s.workers c).goto (.flushTest drain (k + m))) ∧
      s'.g_busy = s.g_busy ∧ s'.g_count = s.g_count + m := by
  induction m generalizing s k with
  | zero =>
      refine ⟨s, [], .nil, ?_, rfl, rfl⟩
      rw [Nat.add_zero, Worker.goto, ← hpc, Function.update_eq_self]
  | succ m ih =>
      let w := s.workers c
      let s1 := ((s.setCount (s.g_count + 1)).copy s.g_count (w.pending k)).set c
        (w.goto (.flushTest drain (k + 1)))
      have hcopy : (machine ncpu).Exec s [.step c, .step c, .step c, .step c] s1 :=
        .cons (.flushGo hpc ⟨by omega, by omega⟩) <|
        .cons (.flushLoad (show _ = Pc.flushLoad drain k by simp)) <|
        .cons (.flushStore (show _ = Pc.flushStore drain k s.g_count by simp)) <|
        .cons (.flushCopy (show _ = Pc.flushCopy drain k s.g_count by simp)) <|
          (.of_eq (by simp [s1, w, State.set, State.setCount, State.copy, Worker.goto]))
      obtain ⟨s', as, hs, hworkers, hbusy, hcount⟩ := ih (s := s1) (k := k + 1)
        (by simp [s1]) (by simp [s1, w]; omega) (by simp [s1]; omega)
      refine ⟨s', _, hcopy.append hs, ?_, hbusy, ?_⟩
      · have hworkers1 : s1.workers =
            Function.update s.workers c (w.goto (.flushTest drain (k + 1))) := rfl
        rw [hworkers, hworkers1, Function.update_self, Function.update_idem,
          show k + 1 + m = k + (m + 1) by omega]
        rfl
      · rw [hcount]
        simp [s1, Nat.add_comm 1, Nat.add_assoc]

/-- From the copy loop of a flush that is not the last one to the next iteration. -/
theorem exec_write (hpc : (s.workers c).pc = .flushTest false 0)
    (hroom : s.g_count + (s.workers c).n ≤ logCapacity) :
    ∃ s' as, (machine ncpu).Exec s as s' ∧
      s'.workers = Function.update (fun d => (s.workers d).wake) c
        ((s.workers c).flushed false).next ∧
      s'.g_busy = 0 ∧ s'.g_count = s.g_count + (s.workers c).n := by
  obtain ⟨s1, as, hs, hworkers, -, hcount⟩ := exec_copies hpc (Nat.zero_add _) hroom
  have hself : s1.workers c = (s.workers c).goto (.flushTest false (s.workers c).n) := by
    rw [hworkers, Function.update_self, Nat.zero_add]
  have hpc1 : (s1.workers c).pc = .flushTest false (s.workers c).n := by rw [hself]; rfl
  refine ⟨_, _, hs.append <| .cons (.flushExit hpc1 fun h => absurd h.1 ?_) <|
    .cons (.endWrite (c := c) (show _ = Pc.endWrite false by simp)) .nil, ?_, rfl, hcount⟩
  · rw [hself]
    exact lt_irrefl _
  · funext d
    by_cases hd : d = c
    · subst hd
      simp [hself, Worker.afterWrite, Worker.next, Worker.flushed, Worker.goto]
    · simp [hd, hworkers]

/-- An iteration that finds the log free. -/
theorem exec_round (h : (s.workers c).At .loop i 0 overlapped slept) (hi : i < entriesPerCpu)
    (hfree : s.g_busy = 0) (hroom : s.g_count < logCapacity) :
    ∃ s' as, (machine ncpu).Exec s as s' ∧ (s'.workers c).At .loop (i + 1) 0 overlapped slept ∧
      (∀ d, d ≠ c → s'.workers d = (s.workers d).wake) ∧
      s'.g_busy = 0 ∧ s'.g_count = s.g_count + 1 := by
  let w := ((s.workers c).stage (makeEntry 0 c)).goto (.flushTest false 0)
  let s1 := (s.setBusy 1).set c w
  have hn : (s1.workers c).n = 1 := by simp [s1, w, h.n]
  have hbegin : (machine ncpu).Exec s [.make c (makeEntry 0 c), .step c] s1 :=
    .cons (.make h.pc (h.i ▸ hi) rfl) <|
    .cons (.tryFree (by simp) hfree) (.of_eq (by simp [s1, w, State.set, State.setBusy, Worker.goto]))
  obtain ⟨s', as, hs, hworkers, hbusy, hcount⟩ := exec_write (s := s1) (c := c) (by simp [s1, w])
    (by rw [hn]; exact hroom)
  refine ⟨s', _, hbegin.append hs, ?_, fun d hd => ?_, hbusy, by rw [hcount, hn]; rfl⟩
  · rw [hworkers, Function.update_self]
    exact ⟨rfl, by simp [s1, w, h.i], rfl, by simp [s1, w, h.overlapped], by simp [s1, w, h.slept]⟩
  · rw [hworkers, Function.update_of_ne hd]
    simp [s1, hd]

/-- Iterations that find the log free, while nobody sleeps. -/
theorem exec_rounds (h : (s.workers c).At .loop i 0 overlapped slept) (hi : i + j ≤ entriesPerCpu)
    (hfree : s.g_busy = 0) (hroom : s.g_count + j ≤ logCapacity)
    (hawake : ∀ d drain, (s.workers d).pc ≠ .asleep drain) :
    ∃ s' as, (machine ncpu).Exec s as s' ∧ (s'.workers c).At .loop (i + j) 0 overlapped slept ∧
      (∀ d, d ≠ c → s'.workers d = s.workers d) ∧ s'.g_busy = 0 ∧ s'.g_count = s.g_count + j := by
  induction j with
  | zero => exact ⟨s, [], .nil, h, fun _ _ => rfl, hfree, rfl⟩
  | succ j ih =>
      obtain ⟨s1, as, hs, h1, hrest, hfree1, hcount1⟩ := ih (by omega) (by omega)
      obtain ⟨s', bs, hs', h', hrest', hfree', hcount'⟩ :=
        exec_round h1 (by omega) hfree1 (by omega)
      refine ⟨s', _, hs.append hs', h', fun d hd => ?_, hfree', by omega⟩
      rw [hrest' d hd, hrest d hd]
      exact Worker.wake_of_awake (hawake d)

/-- Iterations that find the log busy, while there is room in `pending`. -/
theorem exec_refused (h : (s.workers c).At .loop i n overlapped slept) (hi : i + j ≤ entriesPerCpu)
    (hn : n + j < localCap) (hbusy : s.g_busy ≠ 0) :
    ∃ s' as, (machine ncpu).Exec s as s' ∧
      (s'.workers c).At .loop (i + j) (n + j) (overlapped + UInt32.ofNat j) slept ∧
      (∀ d, d ≠ c → s'.workers d = s.workers d) ∧ s'.g_busy = s.g_busy ∧
      s'.g_count = s.g_count := by
  induction j with
  | zero => exact ⟨s, [], .nil, by simpa using h, fun _ _ => rfl, rfl, rfl⟩
  | succ j ih =>
      obtain ⟨s1, as, hs, h1, hrest, hbusy1, hcount1⟩ := ih (by omega) (by omega)
      have hround : (machine ncpu).Exec s1 [.make c (makeEntry 0 c), .step c, .step c] _ :=
        .cons (.make h1.pc (by rw [h1.i]; omega) rfl) <|
        .cons (.tryBusy (by simp) (hbusy1 ▸ hbusy)) <|
        .cons (.overlap (by simp) (by simp [h1.n]; omega)) .nil
      refine ⟨_, _, hs.append hround, ⟨?_, ?_, ?_, ?_, ?_⟩, fun d hd => ?_, hbusy1, hcount1⟩
      · simp
      · simp [h1.i, Nat.add_assoc]
      · simp [h1.n, Nat.add_assoc]
      · simp [h1.overlapped, UInt32.ofNat_add, UInt32.add_assoc]
      · simp [h1.slept]
      · simp [hd, hrest d hd]

/-- The iteration that fills `pending` while the log is busy. -/
theorem exec_full (h : (s.workers c).At .loop i n overlapped slept) (hi : i < entriesPerCpu)
    (hn : n + 1 = localCap) (hbusy : s.g_busy ≠ 0) :
    ∃ s' as, (machine ncpu).Exec s as s' ∧
      (s'.workers c).At (.asleep false) i (n + 1) overlapped (slept + 1) ∧
      (∀ d, d ≠ c → s'.workers d = s.workers d) ∧ s'.g_busy = s.g_busy ∧
      s'.g_count = s.g_count := by
  have hsleep : (machine ncpu).Exec s [.make c (makeEntry 0 c), .step c, .step c, .step c] _ :=
    .cons (.make h.pc (h.i ▸ hi) rfl) <|
    .cons (.tryBusy (by simp) hbusy) <|
    .cons (.full (by simp) (by simp [h.n, hn])) <|
    .cons (.sleep (show _ = Pc.wait false by simp) hbusy) .nil
  refine ⟨_, _, hsleep, ⟨?_, ?_, ?_, ?_, ?_⟩, fun d hd => ?_, rfl, rfl⟩
  · simp
  · simp [h.i]
  · simp [h.n]
  · simp [h.overlapped]
  · simp [h.slept]
  · simp [hd]

/-- The rest of a worker that has to make `j` entries more, while nobody sleeps. -/
theorem exec_rest (h : (s.workers c).At .loop i 0 overlapped slept) (hi : i + j = entriesPerCpu)
    (hfree : s.g_busy = 0) (hroom : s.g_count + j ≤ logCapacity)
    (hawake : ∀ d drain, (s.workers d).pc ≠ .asleep drain) :
    ∃ s' as, (machine ncpu).Exec s as s' ∧
      (s'.workers c).At .done entriesPerCpu 0 overlapped slept ∧
      (∀ d, d ≠ c → s'.workers d = s.workers d) ∧ s'.g_busy = 0 ∧ s'.g_count = s.g_count + j := by
  obtain ⟨s1, as, hs, h1, hrest, hfree1, hcount1⟩ := exec_rounds h hi.le hfree hroom hawake
  refine ⟨_, _, hs.append (.cons (.loopDone h1.pc (by rw [h1.i]; omega) h1.n) .nil),
    ⟨?_, ?_, ?_, ?_, ?_⟩, fun d hd => ?_, hfree1, hcount1⟩
  · simp
  · simp [h1.i, hi]
  · simp [h1.n]
  · simp [h1.overlapped]
  · simp [h1.slept]
  · simp [hd, hrest d hd]

end Undisturbed

/-! ## Two workers -/

/-- Two workers at their start. -/
def two : State 2 where
  g_log _ := makeEntry 0 0
  g_count := 0
  g_busy := 0
  workers _ := ⟨.loop, 0, 0, fun _ => makeEntry 0 0, 0, 0⟩

/-- Worker 0 has the log while worker 1 is refused until it has no room left, and sleeps.  It is woken,
and both come to their ends. -/
theorem exec_two : ∃ s as, (machine 2).Exec two as s ∧
    (s.workers 0).At .done 256 0 0 0 ∧ (s.workers 1).At .done 256 0 7 1 := by
  have hstart : ∀ c, (two.workers c).At .loop 0 0 0 0 := fun c => ⟨rfl, rfl, rfl, rfl, rfl⟩
  let s1 : State 2 := (two.setBusy 1).set 0
    (((two.workers 0).stage (makeEntry 0 0)).goto (.flushTest false 0))
  have hbegin : (machine 2).Exec two [.make 0 (makeEntry 0 0), .step 0] s1 :=
    .cons (.make (hstart 0).pc (by decide) rfl) <|
    .cons (.tryFree (by simp) rfl) (.of_eq (by simp [s1, State.set, State.setBusy, Worker.goto]))
  -- Worker 1 is refused.
  obtain ⟨s2, as2, hs2, h2, hrest2, hbusy2, hcount2⟩ := exec_refused (s := s1) (c := 1) (j := 7)
    (hstart 1) (by decide) (by decide) (by decide)
  obtain ⟨s3, as3, hs3, h3, hrest3, hbusy3, hcount3⟩ :=
    exec_full h2 (by decide) rfl (by rw [hbusy2]; decide)
  have h30 : s3.workers 0 = s1.workers 0 := by
    rw [hrest3 0 (by decide), hrest2 0 (by decide)]
  -- Worker 0 wakes it.
  obtain ⟨s4, as4, hs4, hworkers4, hfree4, hcount4⟩ := exec_write (s := s3) (c := 0)
    (by rw [h30]; rfl) (by rw [h30, hcount3, hcount2]; decide)
  have h40 : (s4.workers 0).At .loop 1 0 0 0 := by
    rw [hworkers4, Function.update_self, h30]
    exact ⟨rfl, rfl, rfl, rfl, rfl⟩
  have h41 : (s4.workers 1).At (.wait false) 7 8 7 1 := by
    rw [hworkers4, Function.update_of_ne (by decide), Worker.wake, h3.pc]
    exact ⟨rfl, h3.i, h3.n, h3.overlapped, h3.slept⟩
  rw [h30, hcount3, hcount2] at hcount4
  -- Worker 1 writes what it has staged.
  let s5 : State 2 := (s4.setBusy 1).set 1 ((s4.workers 1).goto (.flushTest false 0))
  have hclaim : (machine 2).Exec s4 [.step 1] s5 := .cons (.claim h41.pc hfree4) .nil
  have hn5 : (s5.workers 1).n = 8 := h41.n
  obtain ⟨s6, as6, hs6, hworkers6, hfree6, hcount6⟩ := exec_write (s := s5) (c := 1) rfl
    (by rw [hn5, show s5.g_count = _ from hcount4]; decide)
  rw [hn5, show s5.g_count = 1 from hcount4] at hcount6
  have h60 : (s6.workers 0).At .loop 1 0 0 0 := by
    rw [hworkers6, Function.update_of_ne (by decide), show s5.workers 0 = s4.workers 0 from rfl,
      Worker.wake_of_awake (h40.awake (by simp))]
    exact h40
  have h61 : (s6.workers 1).At .loop 8 0 7 1 := by
    rw [hworkers6, Function.update_self]
    exact ⟨rfl, congrArg (· + 1) h41.i, rfl, h41.overlapped, h41.slept⟩
  -- The rest of both.
  have hawake6 : ∀ d drain, (s6.workers d).pc ≠ .asleep drain :=
    Fin.forall_fin_two.mpr ⟨h60.awake (by simp), h61.awake (by simp)⟩
  obtain ⟨s7, as7, hs7, h70, hrest7, hfree7, hcount7⟩ :=
    exec_rest (j := 255) h60 rfl hfree6 (by rw [hcount6]; decide) hawake6
  have h71 : (s7.workers 1).At .loop 8 0 7 1 := by
    rw [hrest7 1 (by decide)]
    exact h61
  have hawake7 : ∀ d drain, (s7.workers d).pc ≠ .asleep drain :=
    Fin.forall_fin_two.mpr ⟨h70.awake (by simp), h71.awake (by simp)⟩
  obtain ⟨s8, as8, hs8, h81, hrest8, -, -⟩ :=
    exec_rest (j := 248) h71 rfl hfree7 (by rw [hcount7, hcount6]; decide) hawake7
  refine ⟨s8, _, hbegin.append (hs2.append (hs3.append (hs4.append (hclaim.append
    (hs6.append (hs7.append hs8)))))), ?_, h81⟩
  rw [hrest8 0 (by decide)]
  exact h70


/-! ## The logger -/

/-- No loss, no duplication, and the order of each worker.  `ncpu` workers run in any
interleaving, with `ncpu` as `main` clamps it.

At every moment at most one worker is between the claim of `g_busy` and `end_write`, and no
worker sleeps while `g_busy` is 0.  The log and what the workers have staged are together
what was made, and for each worker in the order in which it made it.  Whenever a worker
makes an entry, `pending` has room for it.

When all workers have finished, `g_count` is `ncpu * ENTRIES_PER_CPU`, the log holds each
entry that was made once, and the `ENTRIES_PER_CPU` entries of each worker are there in
their order. -/
theorem logged_exactly_once (hcap : ncpu * entriesPerCpu ≤ logCapacity) {n : Nat}
    (r : Run (machine ncpu) n) {k : Nat} (hk : k ≤ n) :
    (∀ c d, ((r.st k).workers c).pc.Owns → ((r.st k).workers d).pc.Owns → c = d) ∧
    ((r.st k).g_busy = 0 → ∀ c drain, ((r.st k).workers c).pc ≠ .asleep drain) ∧
    ((r.st k).log ++ (List.finRange ncpu).flatMap fun c => ((r.st k).workers c).unflushed).Perm
      ((r.seen Act.made k).map Prod.snd) ∧
    (∀ c, ofCpu c (r.st k).log ++ ((r.st k).workers c).unflushed = mine c (r.seen Act.made k)) ∧
    (∀ c e, k < n → r.act k = .make c e → ((r.st k).workers c).n < localCap) ∧
    ((∀ c, ((r.st k).workers c).pc = .done) →
      (r.st k).g_count = ncpu * entriesPerCpu ∧
      ((List.range (r.st k).g_count).map (r.st k).g_log).Perm
        ((r.seen Act.made k).map Prod.snd) ∧
      ∀ c, ofCpu c ((List.range (r.st k).g_count).map (r.st k).g_log) =
          mine c (r.seen Act.made k) ∧
        (mine c (r.seen Act.made k)).length = entriesPerCpu) := by
  have hx := exclusive_run r hk
  have hkept := kept_run r hcap hk
  refine ⟨hx.unique, fun hfree c drain hc => hx.awake c drain hc hfree, hkept.perm hcap,
    hkept.kept, fun c e hlt ha => ?_, fun hdone => ?_⟩
  · have hstep := r.next k hlt
    rw [ha] at hstep
    exact (hkept.fits c).loop (loop_of_make hstep)
  · exact ⟨hkept.g_count_eq hdone hcap, hkept.log_perm hdone hcap,
      fun c => ⟨hkept.ofCpu_log hdone c, hkept.length_mine hdone c⟩⟩

/-- Two workers, of which one is refused and sleeps, from their starts to their ends. -/
theorem logged_exactly_once_two :
    ∃ (n : Nat) (r : Run (machine 2) n), r.st 0 = two ∧ (∀ c, ((r.st n).workers c).pc = .done) ∧
      ((r.st n).workers 1).overlapped = 7 ∧ ((r.st n).workers 1).slept = 1 ∧
      (r.st n).g_count = 512 ∧ ∀ c, (mine c (r.seen Act.made n)).length = 256 := by
  have : Inhabited (Act 2) := ⟨.step 0⟩
  obtain ⟨s, as, hs, h0, h1⟩ := exec_two
  have hinit : (machine 2).init two := ⟨rfl, rfl, fun _ => ⟨rfl, rfl, rfl⟩⟩
  obtain ⟨r, hstart, rfl, -⟩ := hs.exists_run hinit
  have hdone : ∀ c, ((r.st as.length).workers c).pc = .done := Fin.forall_fin_two.mpr ⟨h0.pc, h1.pc⟩
  have hall := (logged_exactly_once (by decide) r le_rfl).2.2.2.2.2 hdone
  exact ⟨_, r, hstart, hdone, h1.overlapped, h1.slept, hall.1, fun c => (hall.2.2 c).2⟩

end LockLogger
