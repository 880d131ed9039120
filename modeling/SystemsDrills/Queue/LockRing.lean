import SystemsDrills.Lib.Wakeup
import SystemsDrills.Ring.Spsc

/-!
# The ring with a lock

`ring_try_write`, `ring_try_read`, `ring_write` and `ring_read` of
`SPSC_Ring_buffer/rb_lock.c`.  `struct Ring` and `init_ring` are those of `rb.c` with a
mutex and two condition variables added: free-running 64-bit `head` and `tail`, and a
slot is a counter masked with `capacity - 1`.

The four functions are the operations of a monitor.  A try operation has the section of
the blocking one, but gives up where that one waits.
-/

namespace LockRing

open Transition Cyclic Monitor
open Spsc (Ring initRing initRing_eq_some)

inductive Op where
  | tryWrite (value : UInt64)
  | tryRead
  | write (value : UInt64)
  | read
deriving DecidableEq, Repr

/-- `ring->head - ring->tail == ring->capacity`. -/
def full (ring : Ring) : Prop := ring.head - ring.tail = ring.capacity

/-- `ring->head == ring->tail`. -/
def empty (ring : Ring) : Prop := ring.head = ring.tail

/-- The updates of a write. -/
def writeBody (value : UInt64) : List (Ring × Option UInt64 → Ring × Option UInt64) :=
  [fun (ring, r) => (ring.put ring.head value, r),
    fun (ring, r) => (ring.setHead (ring.head + 1), r)]

/-- The updates of a read.  A load outside the buffer yields nothing. -/
def readBody : List (Ring × Option UInt64 → Ring × Option UInt64) :=
  [fun (ring, _) => (ring, ring.buf[ring.slot ring.tail]?),
    fun (ring, r) => (ring.setTail (ring.tail + 1), r)]

/-- The four operations. -/
def operations : Operations Ring QueueCond Op UInt64 where
  cond
    | .tryWrite _ | .write _ => .notFull
    | .tryRead | .read => .notEmpty
  blocked
    | .tryWrite _, ring | .write _, ring => full ring
    | .tryRead, ring | .read, ring => empty ring
  waits
    | .tryWrite _ | .tryRead => false
    | .write _ | .read => true
  body
    | .tryWrite value | .write value => writeBody value
    | .tryRead | .read => readBody
  signal
    | .tryWrite _ | .write _ => .notEmpty
    | .tryRead | .read => .notFull

instance : ∀ op ring, Decidable (operations.blocked op ring)
  | .tryWrite _, ring | .write _, ring =>
      inferInstanceAs (Decidable (ring.head - ring.tail = ring.capacity))
  | .tryRead, ring | .read, ring => inferInstanceAs (Decidable (ring.head = ring.tail))

/-- The ring after a write. -/
def afterWrite (ring : Ring) (value : UInt64) : Ring :=
  (ring.put ring.head value).setHead (ring.head + 1)

/-- The ring after a read. -/
def afterRead (ring : Ring) : Ring := ring.setTail (ring.tail + 1)

/-! ## The contents -/

/-- The ring holds the values `vs`, oldest first, and `base` values were read before
them. -/
structure Holds (ring : Ring) (base : Nat) (vs : List UInt64) : Prop where
  shaped : ring.Shaped
  tail : ring.tail = UInt64.ofNat base
  head : ring.head = UInt64.ofNat (base + vs.length)
  window : Window ring.buf ring.capacity.toNat base vs

section

variable {ring : Ring} {base : Nat} {vs : List UInt64}

/-- `head - tail` is the number of values, across the wrap. -/
theorem Holds.occupancy (h : Holds ring base vs) : (ring.head - ring.tail).toNat = vs.length := by
  have := ring.capacity.toNat_lt
  have := h.window.fits
  rw [h.head, h.tail, toNat_sub_ofNat (Nat.le_add_right _ _) (by omega), Nat.add_sub_cancel_left]

theorem Holds.full_iff (h : Holds ring base vs) :
    full ring ↔ vs.length = ring.capacity.toNat := by
  rw [full, ← UInt64.toNat_inj, h.occupancy]

theorem Holds.empty_iff (h : Holds ring base vs) : empty ring ↔ vs = [] := by
  rw [← List.length_eq_zero_iff, ← h.occupancy, empty]
  constructor
  · intro he
    rw [he, UInt64.sub_self]
    rfl
  · intro he
    have hsub : ring.head - ring.tail = 0 := UInt64.toNat_inj.mp he
    rw [← UInt64.sub_add_cancel ring.head ring.tail, hsub, UInt64.zero_add]

theorem holds_init {malloc : UInt64 → Option (List UInt64)} {capacity : UInt64}
    (h : initRing malloc capacity = some ring) (hbuf : ring.buf.length = capacity.toNat) :
    Holds ring 0 [] ∧ ring.capacity = capacity := by
  obtain ⟨hshaped, hcap, -, hhead, htail⟩ := initRing_eq_some h
  refine ⟨⟨hshaped, htail, hhead, Window.empty ?_ 0⟩, hcap⟩
  rw [hbuf, hcap]

/-- The section of a write. -/
theorem Holds.write (h : Holds ring base vs) (hroom : ¬ full ring) (value : UInt64) :
    Holds (afterWrite ring value) base (vs ++ [value]) := by
  have hlt : vs.length < ring.capacity.toNat :=
    lt_of_le_of_ne h.window.fits fun he => hroom (h.full_iff.mpr he)
  refine ⟨⟨h.shaped.two_pow, h.shaped.mask⟩, h.tail, ?_, ?_⟩
  · show ring.head + 1 = _
    rw [h.head, List.length_append, List.length_singleton, ← Nat.add_assoc, ofNat_succ]
  · show Window (ring.buf.set (ring.slot ring.head) value) _ _ _
    rw [h.head, h.shaped.slot_ofNat]
    exact h.window.push hlt value

/-- The section of a read. -/
theorem Holds.read {v : UInt64} (h : Holds ring base (v :: vs)) :
    Holds (afterRead ring) (base + 1) vs ∧ ring.buf[ring.slot ring.tail]? = some v := by
  refine ⟨⟨⟨h.shaped.two_pow, h.shaped.mask⟩, ?_, ?_, h.window.tail⟩, ?_⟩
  · show ring.tail + 1 = _
    rw [h.tail, ofNat_succ]
  · show ring.head = _
    rw [h.head, List.length_cons, Nat.add_right_comm, Nat.add_assoc]
  · rw [h.tail, h.shaped.slot_ofNat]
    exact h.window.head

end

end LockRing
