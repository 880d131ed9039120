import SystemsDrills.Lib.Wakeup
import SystemsDrills.Lib.Cyclic

/-!
# The bounded buffer

`struct bq`, `bq_init`, `bq_put` and `bq_get` of `Interview/bounded_buffer.c`.  The
queue is a cyclic buffer of any capacity, with the slots to write to and to read from
and the number of values.  A put waits on `cond_not_full` while the buffer is full, a get
on `cond_not_empty` while it is empty.

The two functions are the operations of a monitor, each assignment between the loop and
the signal a step of its own.
-/

namespace BoundedBuffer

open Transition Cyclic Monitor

/-- `struct bq` without the mutex and the condition variables. -/
structure Bq where
  buf : List Int32
  /-- The slot to write to. -/
  head : UInt64
  /-- The slot to read from. -/
  tail : UInt64
  count : UInt64
  cap : UInt64
deriving DecidableEq, Repr

/-- `bq_init` up to the initialisation of the mutex and the condition variables.
`malloc` is given a number of bytes, and its block is taken as the list of the 4-byte
slots it holds. -/
def bqInit (malloc : UInt64 → Option (List Int32)) (cap : UInt64) : Option Bq :=
  if cap = 0 then
    none
  else
    match malloc (cap * 4) with
    | none => none
    | some buf => some ⟨buf, 0, 0, 0, cap⟩

/-! ## The operations -/

inductive Op where
  | put (v : Int32)
  | get
deriving DecidableEq, Repr

namespace Bq

/-- `q->buf[q->head] = v`. -/
@[simps] def store (q : Bq) (v : Int32) : Bq := { q with buf := q.buf.set q.head.toNat v }

/-- `q->head = (q->head + 1) % q->cap`. -/
@[simps] def advanceHead (q : Bq) : Bq := { q with head := (q.head + 1) % q.cap }

/-- `q->count++`. -/
@[simps] def increment (q : Bq) : Bq := { q with count := q.count + 1 }

/-- `q->buf[q->tail]`, if this is in the buffer. -/
def load (q : Bq) : Option Int32 := q.buf[q.tail.toNat]?

/-- `q->tail = (q->tail + 1) % q->cap`. -/
@[simps] def advanceTail (q : Bq) : Bq := { q with tail := (q.tail + 1) % q.cap }

/-- `q->count--`. -/
@[simps] def decrement (q : Bq) : Bq := { q with count := q.count - 1 }

end Bq

/-- `bq_put` and `bq_get`. -/
def operations : Operations Bq QueueCond Op Int32 where
  cond
    | .put _ => .notFull
    | .get => .notEmpty
  blocked
    | .put _, q => q.count = q.cap
    | .get, q => q.count = 0
  waits _ := true
  body
    | .put v => [fun (q, r) => (q.store v, r), fun (q, r) => (q.advanceHead, r),
        fun (q, r) => (q.increment, r)]
    | .get => [fun (q, _) => (q, q.load), fun (q, r) => (q.advanceTail, r),
        fun (q, r) => (q.decrement, r)]
  signal
    | .put _ => .notEmpty
    | .get => .notFull

instance : ∀ op q, Decidable (operations.blocked op q)
  | .put _, q => inferInstanceAs (Decidable (q.count = q.cap))
  | .get, q => inferInstanceAs (Decidable (q.count = 0))

@[simp] theorem blocked_put {v : Int32} {q : Bq} :
    operations.blocked (.put v) q ↔ q.count = q.cap := Iff.rfl

@[simp] theorem blocked_get {q : Bq} : operations.blocked .get q ↔ q.count = 0 := Iff.rfl

@[simp] theorem apply_put (v : Int32) (q : Bq) :
    operations.apply (.put v) q = ((q.store v).advanceHead.increment, none) := rfl

@[simp] theorem apply_get (q : Bq) :
    operations.apply .get q = (q.advanceTail.decrement, q.load) := rfl

/-! ## The contents -/

/-- The queue holds the values `vs`, oldest first. -/
structure Bq.Holds (q : Bq) (vs : List Int32) : Prop where
  count : q.count.toNat = vs.length
  tail : q.tail.toNat < q.cap.toNat
  head : q.head.toNat = (q.tail.toNat + q.count.toNat) % q.cap.toNat
  window : Window q.buf q.cap.toNat q.tail.toNat vs

/-- A step to the next slot. -/
theorem toNat_next {i cap : UInt64} (h : i.toNat < cap.toNat) :
    ((i + 1) % cap).toNat = (i.toNat + 1) % cap.toNat := by
  have := cap.toNat_lt
  rw [UInt64.toNat_mod, UInt64.toNat_add, UInt64.toNat_one,
    Nat.mod_eq_of_lt (show i.toNat + 1 < 2 ^ 64 by omega)]

theorem Bq.Holds.pos {q : Bq} {vs : List Int32} (h : q.Holds vs) : 0 < q.cap.toNat :=
  Nat.zero_lt_of_lt h.tail

theorem Bq.Holds.blocked_put_iff {q : Bq} {vs : List Int32} (h : q.Holds vs) :
    q.count = q.cap ↔ vs.length = q.cap.toNat := by
  rw [← UInt64.toNat_inj, h.count]

theorem Bq.Holds.blocked_get_iff {q : Bq} {vs : List Int32} (h : q.Holds vs) :
    q.count = 0 ↔ vs = [] := by
  rw [← UInt64.toNat_inj, h.count]
  exact List.length_eq_zero_iff

theorem bqInit_eq_some {malloc : UInt64 → Option (List Int32)} {cap : UInt64} {q : Bq}
    (h : bqInit malloc cap = some q) :
    0 < cap.toNat ∧ malloc (cap * 4) = some q.buf ∧ q = ⟨q.buf, 0, 0, 0, cap⟩ := by
  unfold bqInit at h
  split at h
  · cases h
  · rename_i hcap
    split at h
    · cases h
    · rename_i hm
      obtain rfl := Option.some.inj h
      have hpos : 0 < cap.toNat :=
        Nat.pos_of_ne_zero fun h0 => hcap (UInt64.toNat_inj.mp (by simpa using h0))
      exact ⟨hpos, hm, rfl⟩

theorem holds_init {buf : List Int32} {cap : UInt64} (hpos : 0 < cap.toNat)
    (hbuf : buf.length = cap.toNat) : Bq.Holds ⟨buf, 0, 0, 0, cap⟩ [] :=
  ⟨rfl, hpos, (Nat.zero_mod _).symm, Window.empty hbuf 0⟩

/-- The section of `bq_put`. -/
theorem Bq.Holds.put {q : Bq} {vs : List Int32} (h : q.Holds vs) (hroom : q.count ≠ q.cap)
    (v : Int32) : (q.store v).advanceHead.increment.Holds (vs ++ [v]) := by
  have hlt : vs.length < q.cap.toNat :=
    lt_of_le_of_ne h.window.fits fun he => hroom (h.blocked_put_iff.mpr he)
  have hcount : (q.count + 1).toNat = q.count.toNat + 1 := by
    have := q.cap.toNat_lt
    have := h.count
    rw [UInt64.toNat_add, UInt64.toNat_one, Nat.mod_eq_of_lt (by omega)]
  have hslot : q.head.toNat < q.cap.toNat := by
    rw [h.head]
    exact Nat.mod_lt _ h.pos
  refine ⟨?_, h.tail, ?_, ?_⟩
  · show (q.count + 1).toNat = _
    rw [hcount, h.count, List.length_append, List.length_singleton]
  · show ((q.head + 1) % q.cap).toNat = (q.tail.toNat + (q.count + 1).toNat) % q.cap.toNat
    rw [toNat_next hslot, hcount, h.head, Nat.mod_add_mod, Nat.add_assoc]
  · show Window (q.buf.set q.head.toNat v) _ _ _
    rw [h.head, h.count]
    exact h.window.push hlt v

/-- The section of `bq_get`. -/
theorem Bq.Holds.get {q : Bq} {v : Int32} {vs : List Int32} (h : q.Holds (v :: vs)) :
    q.advanceTail.decrement.Holds vs ∧ q.load = some v := by
  have hcount : (q.count - 1).toNat = vs.length := by
    have hone : (1 : UInt64) ≤ q.count := by
      rw [UInt64.le_iff_toNat_le, h.count]
      simp
    rw [UInt64.toNat_sub_of_le _ _ hone, h.count]
    simp
  have htail := toNat_next h.tail
  refine ⟨⟨hcount, ?_, ?_, ?_⟩, ?_⟩
  · show ((q.tail + 1) % q.cap).toNat < q.cap.toNat
    rw [htail]
    exact Nat.mod_lt _ h.pos
  · show q.head.toNat = (((q.tail + 1) % q.cap).toNat + (q.count - 1).toNat) % q.cap.toNat
    rw [htail, hcount, Nat.mod_add_mod, h.head, h.count, List.length_cons]
    congr 1
    omega
  · show Window q.buf q.cap.toNat ((q.tail + 1) % q.cap).toNat vs
    rw [htail]
    exact h.window.tail.mod_base
  · have := h.window.head
    rwa [Nat.mod_eq_of_lt h.tail] at this

end BoundedBuffer
