import SystemsDrills.Queue.BoundedBuffer
import SystemsDrills.Queue.LockRing

/-!
# No stuck sleeper

`bq_put` and `bq_get` signal one waiter of the other kind each time, and so do the four
operations of `rb_lock.c`.  This is enough: while a getter sleeps there is a woken getter
for each value in the queue, and while a putter sleeps there is a woken putter for each
free slot.

Only the counters matter here, so nothing is assumed of the buffers.
-/

/-! ## The bounded buffer -/

namespace BoundedBuffer

open Monitor

/-- `bq_put` and `bq_get` count the values. -/
def queue : Queue operations where
  items q := q.count.toNat
  cap q := q.cap.toNat
  cap_eq op q := by
    cases op with
    | put v => rfl
    | get => rfl
  kind op q hle := by
    cases op with
    | put v =>
        refine .inl ⟨rfl, rfl, ?_, fun hb => ?_⟩
        · rw [blocked_put, UInt64.toNat_inj]
        · rw [blocked_put, ← UInt64.toNat_inj] at hb
          have := q.cap.toNat_lt
          simp only [apply_put, Bq.increment_count, Bq.advanceHead_count, Bq.store_count,
            UInt64.toNat_add, UInt64.toNat_one]
          omega
    | get =>
        refine .inr ⟨rfl, rfl, ?_, fun hb => ?_⟩
        · rw [blocked_get, ← UInt64.toNat_inj]
          rfl
        · rw [blocked_get, ← UInt64.toNat_inj, UInt64.toNat_zero] at hb
          have := q.count.toNat_lt
          simp only [apply_get, Bq.decrement_count, Bq.advanceTail_count, UInt64.toNat_sub,
            UInt64.toNat_one]
          omega

end BoundedBuffer

/-! ## The ring with a lock -/

namespace LockRing

open Monitor
open Spsc (Ring)

theorem toNat_sub_eq_zero {a b : UInt64} : (a - b).toNat = 0 ↔ a = b := by
  have := a.toNat_lt
  have := b.toNat_lt
  rw [← UInt64.toNat_inj, UInt64.toNat_sub]
  omega

/-- The difference of the counters after a write. -/
theorem toNat_afterWrite {ring : Ring} (value : UInt64)
    (hle : (ring.head - ring.tail).toNat ≤ ring.capacity.toNat) (hb : ¬ full ring) :
    ((afterWrite ring value).head - (afterWrite ring value).tail).toNat =
      (ring.head - ring.tail).toNat + 1 := by
  rw [full, ← UInt64.toNat_inj] at hb
  have := ring.capacity.toNat_lt
  show (ring.head + 1 - ring.tail).toNat = _
  rw [UInt64.toNat_sub, UInt64.toNat_add, UInt64.toNat_one]
  rw [UInt64.toNat_sub] at hle hb ⊢
  omega

/-- The difference of the counters after a read. -/
theorem toNat_afterRead {ring : Ring} (hb : ¬ empty ring) :
    ((afterRead ring).head - (afterRead ring).tail).toNat + 1 =
      (ring.head - ring.tail).toNat := by
  rw [empty, ← toNat_sub_eq_zero] at hb
  show (ring.head - (ring.tail + 1)).toNat + 1 = _
  have := ring.head.toNat_lt
  have := ring.tail.toNat_lt
  rw [UInt64.toNat_sub, UInt64.toNat_add, UInt64.toNat_one]
  rw [UInt64.toNat_sub] at hb ⊢
  omega

theorem puts_of_write {ring : Ring} {op : Op} {value : UInt64}
    (hop : op = .write value ∨ op = .tryWrite value)
    (hle : (ring.head - ring.tail).toNat ≤ ring.capacity.toNat) :
    Puts operations (fun ring => (ring.head - ring.tail).toNat)
      (fun ring => ring.capacity.toNat) op ring := by
  rcases hop with rfl | rfl
  · exact ⟨rfl, rfl, UInt64.toNat_inj.symm, toNat_afterWrite value hle⟩
  · exact ⟨rfl, rfl, UInt64.toNat_inj.symm, toNat_afterWrite value hle⟩

theorem gets_of_read {ring : Ring} {op : Op} (hop : op = .read ∨ op = .tryRead) :
    Gets operations (fun ring => (ring.head - ring.tail).toNat) op ring := by
  rcases hop with rfl | rfl
  · exact ⟨rfl, rfl, toNat_sub_eq_zero.symm, toNat_afterRead⟩
  · exact ⟨rfl, rfl, toNat_sub_eq_zero.symm, toNat_afterRead⟩

/-- All four operations count the values by `head - tail`. -/
def queue : Queue operations where
  items ring := (ring.head - ring.tail).toNat
  cap ring := ring.capacity.toNat
  cap_eq op ring := by
    cases op with
    | tryWrite value => rfl
    | tryRead => rfl
    | write value => rfl
    | read => rfl
  kind op ring hle := by
    cases op with
    | tryWrite value => exact .inl (puts_of_write (.inr rfl) hle)
    | tryRead => exact .inr (gets_of_read (.inr rfl))
    | write value => exact .inl (puts_of_write (.inl rfl) hle)
    | read => exact .inr (gets_of_read (.inl rfl))

end LockRing

/-! ## Both -/

namespace Queues

open Transition Monitor
open BoundedBuffer (Bq bqInit bqInit_eq_some)
open Spsc (Ring initRing initRing_eq_some)

/-- No stuck sleeper, in `bounded_buffer.c` and in `rb_lock.c` with its four operations
mixed freely, for any number of threads and from the return of the init function on.
While the mutex is free and a getter sleeps, at least as many getters have been woken and
have not tested again as there are values in the queue; while a putter sleeps, at least as
many putters as there are free slots.  If every thread that is in a call sleeps, none of
them could go on, and they are not putters and getters at once. -/
theorem no_stuck_sleeper {T : Type} [DecidableEq T] [Fintype T] :
    (∀ malloc cap q, bqInit malloc cap = some q →
      ∀ s : State T Bq BoundedBuffer.Op Int32,
        (machine BoundedBuffer.operations q).Reachable s →
        (s.mutex = none →
          (∀ t, s.pc t = .asleep .get →
            s.data.count.toNat ≤ s.woken BoundedBuffer.operations .notEmpty) ∧
          (∀ t v, s.pc t = .asleep (.put v) →
            s.data.cap.toNat - s.data.count.toNat ≤
              s.woken BoundedBuffer.operations .notFull)) ∧
        ((∀ t, s.pc t = .idle ∨ ∃ op, s.pc t = .asleep op) →
          (∀ t op, s.pc t = .asleep op → BoundedBuffer.operations.blocked op s.data) ∧
          ¬ ((∃ t v, s.pc t = .asleep (.put v)) ∧ ∃ t, s.pc t = .asleep .get))) ∧
    (∀ malloc capacity ring, initRing malloc capacity = some ring →
      ∀ s : State T Ring LockRing.Op UInt64,
        (machine LockRing.operations ring).Reachable s →
        (s.mutex = none →
          (∀ t, s.pc t = .asleep .read →
            (s.data.head - s.data.tail).toNat ≤ s.woken LockRing.operations .notEmpty) ∧
          (∀ t v, s.pc t = .asleep (.write v) →
            s.data.capacity.toNat - (s.data.head - s.data.tail).toNat ≤
              s.woken LockRing.operations .notFull)) ∧
        ((∀ t, s.pc t = .idle ∨ ∃ op, s.pc t = .asleep op) →
          (∀ t op, s.pc t = .asleep op → LockRing.operations.blocked op s.data) ∧
          ¬ ((∃ t v, s.pc t = .asleep (.write v)) ∧ ∃ t, s.pc t = .asleep .read))) := by
  refine ⟨fun malloc cap q hq s hs => ?_, fun malloc capacity ring hring s hs => ?_⟩
  · obtain ⟨hpos, -, heq⟩ := bqInit_eq_some hq
    have h0 : BoundedBuffer.queue.items q ≤ BoundedBuffer.queue.cap q := by
      rw [heq]
      exact Nat.zero_le _
    have hcap : 0 < BoundedBuffer.queue.cap q := by
      rw [heq]
      exact hpos
    refine ⟨fun hfree => ⟨fun t ht => ?_, fun t v ht => ?_⟩, fun hall => ⟨fun t op ht => ?_, ?_⟩⟩
    · exact Queue.items_le_woken h0 hs hfree ht rfl
    · exact Queue.room_le_woken h0 hs hfree ht rfl
    · exact Queue.blocked_of_all_asleep h0 hs hall ht
    · rintro ⟨⟨t, v, ht⟩, u, hu⟩
      exact Queue.one_kind_of_all_asleep h0 hs hcap hall ht hu rfl rfl
  · obtain ⟨⟨⟨k, hk⟩, -⟩, -, -, hhead, htail⟩ := initRing_eq_some hring
    have h0 : LockRing.queue.items ring ≤ LockRing.queue.cap ring := by
      simp [LockRing.queue, hhead, htail]
    have hcap : 0 < LockRing.queue.cap ring :=
      lt_of_lt_of_eq (Nat.two_pow_pos k) hk.symm
    refine ⟨fun hfree => ⟨fun t ht => ?_, fun t v ht => ?_⟩, fun hall => ⟨fun t op ht => ?_, ?_⟩⟩
    · exact Queue.items_le_woken h0 hs hfree ht rfl
    · exact Queue.room_le_woken h0 hs hfree ht rfl
    · exact Queue.blocked_of_all_asleep h0 hs hall ht
    · rintro ⟨⟨t, v, ht⟩, u, hu⟩
      exact Queue.one_kind_of_all_asleep h0 hs hcap hall ht hu rfl rfl

/-- Two getters sleep, and a put wakes one of them. -/
theorem no_stuck_sleeper_two :
    ∃ s : State (Fin 3) Bq BoundedBuffer.Op Int32,
      (machine BoundedBuffer.operations ⟨[0], 0, 0, 0, 1⟩).Reachable s ∧ s.mutex = none ∧
      s.pc 1 = .asleep .get ∧ s.data.count = 1 ∧
      s.data.count.toNat ≤ s.woken BoundedBuffer.operations .notEmpty := by
  let S := machine (T := Fin 3) BoundedBuffer.operations ⟨[0], 0, 0, 0, 1⟩
  have call : ∀ {s} t op, S.Reachable s → s.pc t = .idle → S.Reachable (s.goto t (.lock op)) :=
    fun _ _ hs hpc => hs.step (.call hpc)
  have h0 : S.Reachable ⟨⟨[0], 0, 0, 0, 1⟩, none, fun _ => .idle⟩ := .init rfl
  have h1 := call 0 .get h0 rfl
  have h2 := h1.step (.lock (t := 0) rfl rfl)
  have h3 := h2.step (.wait (t := 0) rfl rfl rfl)
  have h4 := call 1 .get h3 rfl
  have h5 := h4.step (.lock (t := 1) rfl rfl)
  have h6 := h5.step (.wait (t := 1) rfl rfl rfl)
  have h7 := call 2 (.put 7) h6 rfl
  have h8 := h7.step (.lock (t := 2) rfl rfl)
  have h9 := h8.step (.pass (t := 2) rfl (by decide))
  have h10 := h9.step (.body (t := 2) rfl)
  have h11 := h10.step (.body (t := 2) rfl)
  have h12 := h11.step (.body (t := 2) rfl)
  have h13 := h12.step (.signalOne (t := 2) (u := 0) rfl rfl rfl)
  have h14 := h13.step (.unlock (t := 2) rfl)
  have key := (no_stuck_sleeper (T := Fin 3)).1 (fun _ => some [0]) 1 _ rfl _ h14
  exact ⟨_, h14, rfl, rfl, rfl, (key.1 rfl).1 1 rfl⟩

end Queues
