import SystemsDrills.Lib.Transition

/-!
# The lock-based logger

`try_begin_write`, `wait_begin_write`, `end_write`, `flush` and `worker` of
`CPU_logger/cpu_logger_lock.c`.  A worker claims the log by the flag `g_busy`, which a
mutex guards for a few instructions, and copies the entries it has staged with no mutex
held.  If the log is busy it keeps staging, and sleeps only when it has no room left.

A section under the mutex is one step.  Each iteration of the copy loop is four: the test,
the load and the store of `g_count`, and the copy.  `end_write` wakes all sleepers, and a
sleeper may also wake for no reason; either way it tests `g_busy` again.
-/

namespace LockLogger

open Transition

/-- `LOG_CAPACITY`. -/
def logCapacity : Nat := 4096

/-- `PAYLOAD_BYTES`. -/
def payloadBytes : Nat := 4096

/-- `ENTRIES_PER_CPU`. -/
def entriesPerCpu : Nat := 256

/-- `LOCAL_CAP`. -/
def localCap : Nat := 8

/-- `log_entry_t`. -/
structure Entry where
  timestamp_ns : UInt64
  cpu_id : UInt32
  len : UInt32
  payload : List UInt8
deriving DecidableEq, Repr

/-- `make_entry`, at a time of the clock. -/
def makeEntry (now_ns : UInt64) (cpu : Nat) : Entry where
  timestamp_ns := now_ns
  cpu_id := UInt32.ofNat cpu
  len := UInt32.ofNat payloadBytes
  payload := List.replicate payloadBytes (UInt8.ofNat (cpu &&& 0xFF))

/-- Where a worker is.  `drain` tells the last flush, after the loop, from the others. -/
inductive Pc where
  /-- Before the loop test. -/
  | loop
  /-- Before `try_begin_write`. -/
  | tryBegin
  /-- `try_begin_write` returned 0. -/
  | refused
  /-- In `wait_begin_write`, before `g_busy` is tested. -/
  | wait (drain : Bool)
  | asleep (drain : Bool)
  /-- In `flush`, before the loop test for entry `k`. -/
  | flushTest (drain : Bool) (k : Nat)
  /-- Before the load of `g_count`. -/
  | flushLoad (drain : Bool) (k : Nat)
  /-- Before the store of `slot + 1` to `g_count`. -/
  | flushStore (drain : Bool) (k slot : Nat)
  /-- Before the copy to `g_log[slot]`. -/
  | flushCopy (drain : Bool) (k slot : Nat)
  /-- Before `end_write`. -/
  | endWrite (drain : Bool)
  | done
deriving DecidableEq, Repr

/-- The locals of a worker. -/
structure Worker where
  pc : Pc
  i : Nat
  n : Nat
  pending : Nat → Entry
  overlapped : UInt32
  slept : UInt32

namespace Worker

@[simps] def goto (w : Worker) (p : Pc) : Worker := { w with pc := p }

/-- After `make_entry(&pending[n++], cpu)`. -/
@[simps] def stage (w : Worker) (e : Entry) : Worker :=
  { w with pending := Function.update w.pending w.n e, n := w.n + 1 }

/-- After the loop of `flush`: `n` is set to 0, except after the last one. -/
@[simps] def flushed (w : Worker) (drain : Bool) : Worker :=
  { w with n := if drain then w.n else 0 }

/-- The next iteration. -/
@[simps] def next (w : Worker) : Worker := { w with pc := .loop, i := w.i + 1 }

@[simps] def sleeps (w : Worker) : Worker := { w with slept := w.slept + 1 }

@[simps] def overlaps (w : Worker) : Worker := { w with overlapped := w.overlapped + 1 }

/-- After a broadcast of `g_free`. -/
def wake (w : Worker) : Worker :=
  match w.pc with
  | .asleep drain => w.goto (.wait drain)
  | _ => w

/-- After `end_write` returned. -/
def afterWrite (w : Worker) (drain : Bool) : Worker := if drain then w.goto .done else w.next

end Worker

structure State (ncpu : Nat) where
  g_log : Nat → Entry
  g_count : Nat
  g_busy : Int32
  workers : Fin ncpu → Worker

variable {ncpu : Nat}

namespace State

@[simps] def set (s : State ncpu) (c : Fin ncpu) (w : Worker) : State ncpu :=
  { s with workers := Function.update s.workers c w }

@[simps] def setBusy (s : State ncpu) (b : Int32) : State ncpu := { s with g_busy := b }

@[simps] def setCount (s : State ncpu) (m : Nat) : State ncpu := { s with g_count := m }

/-- After `memcpy(&g_log[slot], e, sizeof *e)`. -/
@[simps] def copy (s : State ncpu) (slot : Nat) (e : Entry) : State ncpu :=
  { s with g_log := Function.update s.g_log slot e }

/-- After `pthread_cond_broadcast(&g_free)`. -/
@[simps] def broadcast (s : State ncpu) : State ncpu :=
  { s with workers := fun c => (s.workers c).wake }

/-- What holds of the worker that moved and of all others. -/
theorem forall_set {s : State ncpu} {c : Fin ncpu} {w : Worker} {P : Fin ncpu → Worker → Prop}
    (hw : P c w) (hrest : ∀ d, d ≠ c → P d (s.workers d)) : ∀ d, P d ((s.set c w).workers d) :=
  (Function.forall_update_iff s.workers P).mpr ⟨hw, hrest⟩

end State

/-- The labels tell the entries that are made. -/
inductive Act (ncpu : Nat) where
  | make (c : Fin ncpu) (e : Entry)
  | step (c : Fin ncpu)

inductive Step : State ncpu → Act ncpu → State ncpu → Prop where
  | make {c : Fin ncpu} :
      (s.workers c).pc = .loop → (s.workers c).i < entriesPerCpu → e = makeEntry now_ns c →
      Step s (.make c e) (s.set c (((s.workers c).stage e).goto .tryBegin))
  | loopDrain :
      (s.workers c).pc = .loop → ¬ (s.workers c).i < entriesPerCpu → (s.workers c).n ≠ 0 →
      Step s (.step c) (s.set c ((s.workers c).goto (.wait true)))
  | loopDone :
      (s.workers c).pc = .loop → ¬ (s.workers c).i < entriesPerCpu → (s.workers c).n = 0 →
      Step s (.step c) (s.set c ((s.workers c).goto .done))
  | tryFree :
      (s.workers c).pc = .tryBegin → s.g_busy = 0 →
      Step s (.step c) ((s.setBusy 1).set c ((s.workers c).goto (.flushTest false 0)))
  | tryBusy :
      (s.workers c).pc = .tryBegin → s.g_busy ≠ 0 →
      Step s (.step c) (s.set c ((s.workers c).goto .refused))
  | full :
      (s.workers c).pc = .refused → (s.workers c).n = localCap →
      Step s (.step c) (s.set c ((s.workers c).sleeps.goto (.wait false)))
  | overlap :
      (s.workers c).pc = .refused → (s.workers c).n ≠ localCap →
      Step s (.step c) (s.set c (s.workers c).overlaps.next)
  | claim :
      (s.workers c).pc = .wait drain → s.g_busy = 0 →
      Step s (.step c) ((s.setBusy 1).set c ((s.workers c).goto (.flushTest drain 0)))
  | sleep :
      (s.workers c).pc = .wait drain → s.g_busy ≠ 0 →
      Step s (.step c) (s.set c ((s.workers c).goto (.asleep drain)))
  | spurious :
      (s.workers c).pc = .asleep drain →
      Step s (.step c) (s.set c ((s.workers c).goto (.wait drain)))
  | flushGo :
      (s.workers c).pc = .flushTest drain k →
      k < (s.workers c).n ∧ s.g_count < logCapacity →
      Step s (.step c) (s.set c ((s.workers c).goto (.flushLoad drain k)))
  | flushExit :
      (s.workers c).pc = .flushTest drain k →
      ¬ (k < (s.workers c).n ∧ s.g_count < logCapacity) →
      Step s (.step c) (s.set c (((s.workers c).flushed drain).goto (.endWrite drain)))
  | flushLoad :
      (s.workers c).pc = .flushLoad drain k →
      Step s (.step c) (s.set c ((s.workers c).goto (.flushStore drain k s.g_count)))
  | flushStore :
      (s.workers c).pc = .flushStore drain k slot →
      Step s (.step c)
        ((s.setCount (slot + 1)).set c ((s.workers c).goto (.flushCopy drain k slot)))
  | flushCopy :
      (s.workers c).pc = .flushCopy drain k slot →
      Step s (.step c)
        ((s.copy slot ((s.workers c).pending k)).set c
          ((s.workers c).goto (.flushTest drain (k + 1))))
  | endWrite :
      (s.workers c).pc = .endWrite drain →
      Step s (.step c)
        ((s.setBusy 0).broadcast.set c ((s.workers c).afterWrite drain))

/-- `ncpu` workers at their start. -/
def machine (ncpu : Nat) : System (State ncpu) (Act ncpu) where
  init s := s.g_count = 0 ∧ s.g_busy = 0 ∧
    ∀ c, (s.workers c).pc = .loop ∧ (s.workers c).i = 0 ∧ (s.workers c).n = 0
  step := Step

/-! ## The claim of the log -/

/-- The worker is between the claim of `g_busy` and `end_write`. -/
def Pc.Owns : Pc → Prop
  | .flushTest _ _ | .flushLoad _ _ | .flushStore _ _ _ | .flushCopy _ _ _ | .endWrite _ => True
  | .loop | .tryBegin | .refused | .wait _ | .asleep _ | .done => False

/-- The flag tells whether a worker owns the log, at most one does, and nobody sleeps
when none does. -/
structure State.Exclusive (s : State ncpu) : Prop where
  unique : ∀ c d, (s.workers c).pc.Owns → (s.workers d).pc.Owns → c = d
  busy : s.g_busy ≠ 0 ↔ ∃ c, (s.workers c).pc.Owns
  awake : ∀ c drain, (s.workers c).pc = .asleep drain → s.g_busy ≠ 0

/-- A worker moves and is the owner as before. -/
theorem State.Exclusive.set {s : State ncpu} (hx : s.Exclusive) {c : Fin ncpu} {w : Worker}
    (hown : w.pc.Owns ↔ (s.workers c).pc.Owns)
    (hsleep : ∀ drain, w.pc = .asleep drain → s.g_busy ≠ 0) : (s.set c w).Exclusive := by
  have howns : ∀ d, ((s.set c w).workers d).pc.Owns ↔ (s.workers d).pc.Owns :=
    State.forall_set (P := fun d w => w.pc.Owns ↔ (s.workers d).pc.Owns) hown fun _ _ => Iff.rfl
  refine ⟨fun d d' hd hd' => ?_, ?_, ?_⟩
  · exact hx.unique d d' ((howns d).mp hd) ((howns d').mp hd')
  · simp only [howns]
    exact hx.busy
  · exact State.forall_set (P := fun _ w => ∀ drain, w.pc = .asleep drain → s.g_busy ≠ 0) hsleep
      fun d _ => hx.awake d

theorem State.Exclusive.setCount {s : State ncpu} (hx : s.Exclusive) (m : Nat) :
    (s.setCount m).Exclusive := ⟨hx.unique, hx.busy, hx.awake⟩

theorem State.Exclusive.copy {s : State ncpu} (hx : s.Exclusive) (slot : Nat) (e : Entry) :
    (s.copy slot e).Exclusive := ⟨hx.unique, hx.busy, hx.awake⟩

/-- A worker claims the log. -/
theorem State.Exclusive.claim {s : State ncpu} (hx : s.Exclusive) (hfree : s.g_busy = 0)
    (c : Fin ncpu) {w : Worker} (hw : w.pc.Owns) : ((s.setBusy 1).set c w).Exclusive := by
  have hnone : ∀ d, ¬ (s.workers d).pc.Owns := fun d hd => hx.busy.mpr ⟨d, hd⟩ hfree
  have howns : ∀ d, (((s.setBusy 1).set c w).workers d).pc.Owns → d = c := by
    intro d hd
    by_contra hdc
    exact hnone d (by simpa [hdc] using hd)
  refine ⟨fun d d' hd hd' => (howns d hd).trans (howns d' hd').symm, ?_, fun d drain hd => ?_⟩
  · exact iff_of_true (show (1 : Int32) ≠ 0 by decide) ⟨c, by simpa using hw⟩
  · exact (by decide : (1 : Int32) ≠ 0)

theorem Worker.wake_owns (w : Worker) : w.wake.pc.Owns ↔ w.pc.Owns := by
  rw [wake]
  split
  · next h => simp [h, Pc.Owns]
  · rfl

theorem Worker.wake_not_asleep (w : Worker) (drain : Bool) : w.wake.pc ≠ .asleep drain := by
  rw [wake]
  split
  · simp
  · next h => exact fun he => h drain he

/-- The owner ends its write. -/
theorem State.Exclusive.endWrite {s : State ncpu} (hx : s.Exclusive) {c : Fin ncpu}
    (hown : (s.workers c).pc.Owns) {w : Worker} (hw : ¬ w.pc.Owns)
    (hsleep : ∀ drain, w.pc ≠ .asleep drain) : ((s.setBusy 0).broadcast.set c w).Exclusive := by
  have hnone : ∀ d, ¬ (((s.setBusy 0).broadcast.set c w).workers d).pc.Owns := by
    refine State.forall_set (P := fun _ w => ¬ w.pc.Owns) hw fun d hdc hd => ?_
    exact hdc (hx.unique d c ((Worker.wake_owns _).mp hd) hown)
  refine ⟨fun d _ hd _ => absurd hd (hnone d), ?_, ?_⟩
  · exact iff_of_false (by simp) fun ⟨d, hd⟩ => hnone d hd
  · exact State.forall_set (P := fun _ w => ∀ drain, w.pc = .asleep drain → (0 : Int32) ≠ 0)
      (fun drain h => absurd h (hsleep drain))
      fun d _ drain h => absurd h (Worker.wake_not_asleep _ drain)

theorem Worker.afterWrite_not_owns (w : Worker) (drain : Bool) :
    ¬ (w.afterWrite drain).pc.Owns ∧ ∀ d, (w.afterWrite drain).pc ≠ .asleep d := by
  cases drain with
  | false => exact ⟨fun h => h, fun d h => by cases h⟩
  | true => exact ⟨fun h => h, fun d h => by cases h⟩

theorem exclusive_step {s s' : State ncpu} {a : Act ncpu} (hx : s.Exclusive) (h : Step s a s') :
    s'.Exclusive := by
  cases h with
  | make hpc _ _ => exact hx.set (by simp [hpc, Pc.Owns]) (by simp)
  | loopDrain hpc _ _ => exact hx.set (by simp [hpc, Pc.Owns]) (by simp)
  | loopDone hpc _ _ => exact hx.set (by simp [hpc, Pc.Owns]) (by simp)
  | tryFree hpc hfree => exact hx.claim hfree _ trivial
  | tryBusy hpc _ => exact hx.set (by simp [hpc, Pc.Owns]) (by simp)
  | full hpc _ => exact hx.set (by simp [hpc, Pc.Owns]) (by simp)
  | overlap hpc _ => exact hx.set (by simp [hpc, Pc.Owns]) (by simp)
  | claim hpc hfree => exact hx.claim hfree _ trivial
  | sleep hpc hbusy => exact hx.set (by simp [hpc, Pc.Owns]) fun _ _ => hbusy
  | spurious hpc => exact hx.set (by simp [hpc, Pc.Owns]) (by simp)
  | flushGo hpc _ => exact hx.set (by simp [hpc, Pc.Owns]) (by simp)
  | flushExit hpc _ => exact hx.set (by simp [hpc, Pc.Owns]) (by simp)
  | flushLoad hpc => exact hx.set (by simp [hpc, Pc.Owns]) (by simp)
  | flushStore hpc => exact (hx.setCount _).set (by simp [hpc, Pc.Owns]) (by simp)
  | flushCopy hpc => exact (hx.copy _ _).set (by simp [hpc, Pc.Owns]) (by simp)
  | endWrite hpc =>
      obtain ⟨hnot, hsleep⟩ := Worker.afterWrite_not_owns _ _
      exact hx.endWrite (by simp [hpc, Pc.Owns]) hnot hsleep

theorem exclusive_start {s : State ncpu} (h : (machine ncpu).init s) : s.Exclusive := by
  obtain ⟨-, hbusy, hw⟩ := h
  have hnone : ∀ c, ¬ (s.workers c).pc.Owns := fun c hc => by simp [(hw c).1, Pc.Owns] at hc
  refine ⟨fun c _ hc _ => absurd hc (hnone c), ?_, fun c drain hc => ?_⟩
  · exact iff_of_false (by simp [hbusy]) fun ⟨c, hc⟩ => hnone c hc
  · rw [(hw c).1] at hc
    cases hc

end LockLogger
