import SystemsDrills.Queue.BoundedBuffer
import SystemsDrills.Queue.LockRing

/-!
# The two queues agree

The bounded buffer of `bounded_buffer.c` reduces `head` and `tail` modulo `cap` and counts
its values.  The ring of `rb_lock.c` lets `head` and `tail` run over 64 bits and masks
them.  When the capacity is a power of two and both start empty, the sections of the two
go on or are blocked alike and deliver the same values, for as many operations as one
likes.

Both are compared with the list of values they hold.  The ring also has the number of
values that were read, which no counter of the code keeps: `tail` of the ring is that
number modulo `2 ^ 64`, and `tail` of the buffer is that number modulo `cap`.
-/

namespace QueueAgreement

open Cyclic Monitor
open Spsc (Ring initRing)
open BoundedBuffer (Bq Op bqInit)

/-- The operation of the ring that corresponds to one of the buffer.  It may be the
blocking one or the one that gives up.  A value `v` of the buffer is `f v` in the ring. -/
def ringOp (f : Int32 → UInt64) : Op × Bool → LockRing.Op
  | (.put v, false) => .write (f v)
  | (.put v, true) => .tryWrite (f v)
  | (.get, false) => .read
  | (.get, true) => .tryRead

/-- The two hold the same values. -/
structure Related (f : Int32 → UInt64) (cap : UInt64) (q : Bq) (ring : Ring) (base : Nat)
    (vs : List Int32) : Prop where
  bq_cap : q.cap = cap
  capacity : ring.capacity = cap
  tail : q.tail.toNat = base % cap.toNat
  bq : q.Holds vs
  ring : LockRing.Holds ring base (vs.map f)

section

variable {f : Int32 → UInt64} {cap : UInt64} {q : Bq} {ring : Ring} {base : Nat} {vs : List Int32}

/-- The counters of the two: across the wrap of those of the ring. -/
theorem Related.counters (h : Related f cap q ring base vs) :
    q.count = ring.head - ring.tail ∧ q.head.toNat = ring.head.toNat % cap.toNat ∧
      q.tail.toNat = ring.tail.toNat % cap.toNat := by
  obtain ⟨k, hk⟩ := h.ring.shaped.two_pow
  rw [h.capacity] at hk
  have hwrap : ∀ i : Nat, (UInt64.ofNat i).toNat % cap.toNat = i % cap.toNat := by
    intro i
    have hk64 : k ≤ 64 := by
      have := cap.toNat_lt
      rw [hk] at this
      exact ((Nat.pow_lt_pow_iff_right (by norm_num)).mp this).le
    rw [UInt64.toNat_ofNat', hk, Nat.mod_mod_of_dvd i (Nat.pow_dvd_pow 2 hk64)]
  refine ⟨?_, ?_, ?_⟩
  · rw [← UInt64.toNat_inj, h.ring.occupancy, h.bq.count, List.length_map]
  · rw [h.bq.head, h.bq.count, h.bq_cap, h.tail, h.ring.head, hwrap, Nat.mod_add_mod,
      List.length_map]
  · rw [h.tail, h.ring.tail, hwrap]

theorem Related.blocked_iff (h : Related f cap q ring base vs) (op : Op × Bool) :
    LockRing.operations.blocked (ringOp f op) ring ↔
      BoundedBuffer.operations.blocked op.1 q := by
  have hput : LockRing.full ring ↔ q.count = q.cap := by
    rw [h.ring.full_iff, h.bq.blocked_put_iff, List.length_map, h.bq_cap, h.capacity]
  have hget : LockRing.empty ring ↔ q.count = 0 := by
    rw [h.ring.empty_iff, h.bq.blocked_get_iff, List.map_eq_nil_iff]
  match op with
  | (.put v, false) => exact hput
  | (.put v, true) => exact hput
  | (.get, false) => exact hget
  | (.get, true) => exact hget

/-- One section of each. -/
theorem Related.apply (h : Related f cap q ring base vs) (op : Op × Bool)
    (hb : ¬ BoundedBuffer.operations.blocked op.1 q) :
    (LockRing.operations.apply (ringOp f op) ring).2 =
        (BoundedBuffer.operations.apply op.1 q).2.map f ∧
      ∃ base' vs', Related f cap (BoundedBuffer.operations.apply op.1 q).1
        (LockRing.operations.apply (ringOp f op) ring).1 base' vs' := by
  have hput : ∀ v, q.count ≠ q.cap →
      Related f cap (q.store v).advanceHead.increment (LockRing.afterWrite ring (f v)) base
        (vs ++ [v]) := by
    intro v hroom
    have hroom' : ¬ LockRing.full ring := fun hf => hroom ((h.blocked_iff (.put v, false)).mp hf)
    refine ⟨h.bq_cap, h.capacity, h.tail, h.bq.put hroom v, ?_⟩
    rw [List.map_append]
    exact h.ring.write hroom' (f v)
  have hget : q.count ≠ 0 → ∃ v vs', q.load = some v ∧
      ring.buf[ring.slot ring.tail]? = some (f v) ∧
      Related f cap q.advanceTail.decrement (LockRing.afterRead ring) (base + 1) vs' := by
    intro hne
    cases vs with
    | nil => exact absurd (h.bq.blocked_get_iff.mpr rfl) hne
    | cons v vs =>
        obtain ⟨hbq, hload⟩ := h.bq.get
        obtain ⟨hring, hslot⟩ := h.ring.read
        refine ⟨v, vs, hload, hslot, h.bq_cap, h.capacity, ?_, hbq, hring⟩
        show ((q.tail + 1) % q.cap).toNat = _
        rw [BoundedBuffer.toNat_next h.bq.tail, h.bq_cap, h.tail, Nat.mod_add_mod]
  match op with
  | (.put v, false) => exact ⟨rfl, _, _, hput v hb⟩
  | (.put v, true) => exact ⟨rfl, _, _, hput v hb⟩
  | (.get, false) =>
      obtain ⟨v, vs', hload, hslot, hrel⟩ := hget hb
      refine ⟨?_, _, _, hrel⟩
      show ring.buf[ring.slot ring.tail]? = q.load.map f
      rw [hload, hslot, Option.map_some]
  | (.get, true) =>
      obtain ⟨v, vs', hload, hslot, hrel⟩ := hget hb
      refine ⟨?_, _, _, hrel⟩
      show ring.buf[ring.slot ring.tail]? = q.load.map f
      rw [hload, hslot, Option.map_some]

/-- An attempt at an operation. -/
theorem Related.attempt (h : Related f cap q ring base vs) (op : Op × Bool) :
    (LockRing.operations.attempt ring (ringOp f op)).1 =
        (BoundedBuffer.operations.attempt q op.1).1.map (Option.map f) ∧
      ∃ base' vs', Related f cap (BoundedBuffer.operations.attempt q op.1).2
        (LockRing.operations.attempt ring (ringOp f op)).2 base' vs' := by
  by_cases hb : BoundedBuffer.operations.blocked op.1 q
  · have hb' := (h.blocked_iff op).mpr hb
    simp only [Operations.attempt, hb, hb', if_true, Option.map_none, true_and]
    exact ⟨base, vs, h⟩
  · have hb' : ¬ LockRing.operations.blocked (ringOp f op) ring :=
      fun hr => hb ((h.blocked_iff op).mp hr)
    obtain ⟨hres, base', vs', hrel⟩ := h.apply op hb
    simp only [Operations.attempt, hb, hb', if_false, Option.map_some, hres, true_and]
    exact ⟨base', vs', hrel⟩

end

/-- Sequences of attempts. -/
theorem attempts_agree (f : Int32 → UInt64) (cap : UInt64) (ops : List (Op × Bool)) :
    ∀ {q : Bq} {ring : Ring} {base : Nat} {vs : List Int32}, Related f cap q ring base vs →
      (LockRing.operations.attempts ring (ops.map (ringOp f))).1 =
          (BoundedBuffer.operations.attempts q (ops.map Prod.fst)).1.map
            (Option.map (Option.map f)) ∧
        ∃ base' vs', Related f cap (BoundedBuffer.operations.attempts q (ops.map Prod.fst)).2
          (LockRing.operations.attempts ring (ops.map (ringOp f))).2 base' vs' := by
  induction ops with
  | nil => exact fun h => ⟨rfl, _, _, h⟩
  | cons op ops ih =>
      intro q ring base vs h
      obtain ⟨hout, base', vs', hrel⟩ := h.attempt op
      obtain ⟨houts, hlast⟩ := ih hrel
      refine ⟨?_, hlast⟩
      simp only [List.map_cons, Operations.attempts]
      rw [hout, houts]

/-- The two representations agree.  For every capacity that `init_ring` accepts, a power of
two, and every sequence of put and get sections on the two queues, started empty with
room for `cap` values each, the same ones are blocked or refused and the others deliver
the same values.  Afterwards the count is `head - tail` of the ring modulo `2 ^ 64`, and
`head` and `tail` of the buffer are those of the ring modulo `cap`. -/
theorem queues_agree {malloc : UInt64 → Option (List Int32)}
    {malloc' : UInt64 → Option (List UInt64)} {cap : UInt64} {q : Bq} {ring : Ring}
    (hq : bqInit malloc cap = some q) (hring : initRing malloc' cap = some ring)
    (hbuf : q.buf.length = cap.toNat) (hbuf' : ring.buf.length = cap.toNat)
    (f : Int32 → UInt64) (ops : List (Op × Bool)) :
    ∃ outcomes q' ring',
      BoundedBuffer.operations.attempts q (ops.map Prod.fst) = (outcomes, q') ∧
      LockRing.operations.attempts ring (ops.map (ringOp f)) =
        (outcomes.map (Option.map (Option.map f)), ring') ∧
      q'.count = ring'.head - ring'.tail ∧
      q'.head.toNat = ring'.head.toNat % cap.toNat ∧
      q'.tail.toNat = ring'.tail.toNat % cap.toNat := by
  obtain ⟨hpos, -, heq⟩ := BoundedBuffer.bqInit_eq_some hq
  obtain ⟨hholds, hcap⟩ := LockRing.holds_init hring hbuf'
  have hrel : Related f cap q ring 0 [] := by
    rw [heq]
    exact ⟨rfl, hcap, (Nat.zero_mod _).symm, BoundedBuffer.holds_init hpos hbuf, hholds⟩
  obtain ⟨houts, base, vs, hrel'⟩ := attempts_agree f cap ops hrel
  exact ⟨_, _, _, rfl, Prod.ext houts rfl, hrel'.counters⟩

/-- Two slots: a third value is refused, and a get from the empty queue too. -/
theorem queues_agree_two :
    ∃ q' ring',
      BoundedBuffer.operations.attempts ⟨[0, 0], 0, 0, 0, 2⟩
          [.put 5, .put 6, .put 7, .get, .put (-8), .get, .get, .get] =
        ([some none, some none, none, some (some 5), some none, some (some 6), some (some (-8)),
          none], q') ∧
      LockRing.operations.attempts ⟨2, 1, [0, 0], 0, 0⟩
          [.write 5, .tryWrite 6, .tryWrite 7, .read, .write 0xfffffffffffffff8, .tryRead, .read,
            .tryRead] =
        ([some none, some none, none, some (some 5), some none, some (some 6),
          some (some 0xfffffffffffffff8), none], ring') ∧
      q'.head.toNat = ring'.head.toNat % 2 := by
  obtain ⟨outcomes, q', ring', hq, hring, -, hhead, -⟩ :=
    queues_agree (show bqInit (fun _ => some [0, 0]) 2 = some ⟨[0, 0], 0, 0, 0, 2⟩ from rfl)
      (show initRing (fun _ => some [0, 0]) 2 = some ⟨2, 1, [0, 0], 0, 0⟩ by decide) rfl rfl
      (fun v => v.toInt64.toUInt64)
      [(.put 5, false), (.put 6, true), (.put 7, true), (.get, false), (.put (-8), false),
        (.get, true), (.get, false), (.get, true)]
  have houts : outcomes = [some none, some none, none, some (some 5), some none, some (some 6),
      some (some (-8)), none] := (congrArg Prod.fst hq).symm.trans (by decide)
  subst houts
  exact ⟨q', ring', hq, hring, hhead⟩

end QueueAgreement
