import SystemsDrills.Lib.Calls

/-!
# The lock-free logger

`log_write` and `log_read` of `CPU_logger/cpu_logger_lock_free.c`.  A writer
draws a ticket with one `fetch_add` and copies its entry into the slot of the
ticket between two stores to the slot's sequence number.  A reader copies the
slot between two loads of that number.

The machine interleaves any number of writers and readers that call `log_write`
and `log_read` over and over.  Each atomic access is one step, and a `memcpy`
copies the bytes of an entry one at a time, each once, in any order.

Tickets `t` and `t + LOG_SLOTS` share a slot, and nothing keeps their writers
apart.
-/

namespace Logger

open Transition

/-! ## The log -/

/-- `LOG_SLOTS`. -/
abbrev logSlots : Nat := 4096

/-- `sizeof(log_entry_t)`: a 64-bit time, two 32-bit fields and the payload of
`PAYLOAD_BYTES`. -/
abbrev entryBytes : Nat := 8 + 4 + 4 + 4096

/-- `log_entry_t`, as `memcpy` sees it. -/
abbrev Entry := Fin entryBytes → UInt8

/-- `ticket & (LOG_SLOTS - 1)`. -/
def slotOf (ticket : UInt64) : Fin logSlots :=
  ⟨(ticket &&& (4096 - 1)).toNat, by
    rw [UInt64.toNat_and]
    exact Nat.lt_of_le_of_lt Nat.and_le_right (by decide)⟩

/-- The sequence number while ticket `t` is being written. -/
def writing (ticket : UInt64) : UInt64 := 2 * ticket + 1

/-- The sequence number once ticket `t` is committed. -/
def committed (ticket : UInt64) : UInt64 := 2 * ticket + 2

/-- `log_buffer_t`. -/
structure LogBuffer where
  head : UInt64
  seq : Fin logSlots → UInt64
  entry : Fin logSlots → Entry

/-- The log after `fetch_add(&head, 1)`. -/
@[simps] def LogBuffer.draw (log : LogBuffer) : LogBuffer := { log with head := log.head + 1 }

/-- The log after a store to a sequence number. -/
@[simps] def LogBuffer.store (log : LogBuffer) (j : Fin logSlots) (v : UInt64) : LogBuffer :=
  { log with seq := Function.update log.seq j v }

/-- The log after one byte of an entry was copied in. -/
@[simps] def LogBuffer.copyByte (log : LogBuffer) (j : Fin logSlots) (i : Fin entryBytes)
    (b : UInt8) : LogBuffer :=
  { log with entry := Function.update log.entry j (Function.update (log.entry j) i b) }

/-! ## The machine -/

/-- Where a writer is, with the locals of `log_write`. -/
inductive WriterPc where
  | idle
  | draw (e : Entry)
  | mark (ticket : UInt64) (e : Entry)
  /-- In the `memcpy`, with the bytes in `done` copied. -/
  | copy (ticket : UInt64) (e : Entry) (done : Finset (Fin entryBytes))

/-- Where a reader is, with the locals of `log_read` and `*out`. -/
inductive ReaderPc where
  | idle
  | load1 (ticket : UInt64) (out : Entry)
  | test1 (ticket v : UInt64) (out : Entry)
  /-- In the `memcpy`, with the bytes in `done` copied. -/
  | copy (ticket : UInt64) (out : Entry) (done : Finset (Fin entryBytes))
  | test2 (ticket v : UInt64) (out : Entry)

structure State (W R : Type) where
  log : LogBuffer
  writer : W → WriterPc
  reader : R → ReaderPc

inductive Act (W R : Type) where
  | writeCall (w : W) (e : Entry)
  | draw (w : W) (ticket : UInt64) (e : Entry)
  | mark (w : W) (ticket : UInt64)
  | writeCopy (w : W)
  /-- The final store of `log_write`, with which it returns. -/
  | commit (w : W) (ticket : UInt64)
  | readCall (r : R) (ticket : UInt64)
  | firstLoad (r : R)
  | readStep (r : R)
  /-- `log_read(ticket)` returns `res`, with `*out` as it is then. -/
  | ret (r : R) (ticket : UInt64) (res : Int) (out : Entry)

variable {W R : Type} [DecidableEq W] [DecidableEq R]

instance [Inhabited W] : Inhabited (Act W R) := ⟨.writeCopy default⟩

@[simps] def State.gotoWriter (s : State W R) (w : W) (p : WriterPc) : State W R :=
  { s with writer := Function.update s.writer w p }

@[simps] def State.gotoReader (s : State W R) (r : R) (p : ReaderPc) : State W R :=
  { s with reader := Function.update s.reader r p }

@[simps] def State.setLog (s : State W R) (log : LogBuffer) : State W R := { s with log := log }

inductive Step : State W R → Act W R → State W R → Prop where
  | writeCall :
      s.writer w = .idle →
      Step s (.writeCall w e) (s.gotoWriter w (.draw e))
  | draw :
      s.writer w = .draw e →
      Step s (.draw w s.log.head e)
        ((s.setLog s.log.draw).gotoWriter w (.mark s.log.head e))
  | mark :
      s.writer w = .mark t e →
      Step s (.mark w t)
        ((s.setLog (s.log.store (slotOf t) (writing t))).gotoWriter w (.copy t e ∅))
  | writeCopy :
      s.writer w = .copy t e done → i ∉ done →
      Step s (.writeCopy w)
        ((s.setLog (s.log.copyByte (slotOf t) i (e i))).gotoWriter w (.copy t e (insert i done)))
  | commit :
      s.writer w = .copy t e Finset.univ →
      Step s (.commit w t)
        ((s.setLog (s.log.store (slotOf t) (committed t))).gotoWriter w .idle)
  /-- The caller's buffer holds anything. -/
  | readCall :
      s.reader r = .idle →
      Step s (.readCall r t) (s.gotoReader r (.load1 t out))
  | firstLoad :
      s.reader r = .load1 t out →
      Step s (.firstLoad r) (s.gotoReader r (.test1 t (s.log.seq (slotOf t)) out))
  | readMiss :
      s.reader r = .test1 t v out → v ≠ committed t →
      Step s (.ret r t (-1) out) (s.gotoReader r .idle)
  | readStart :
      s.reader r = .test1 t v out → v = committed t →
      Step s (.readStep r) (s.gotoReader r (.copy t out ∅))
  | readCopy :
      s.reader r = .copy t out done → i ∉ done →
      Step s (.readStep r)
        (s.gotoReader r
          (.copy t (Function.update out i (s.log.entry (slotOf t) i)) (insert i done)))
  | secondLoad :
      s.reader r = .copy t out Finset.univ →
      Step s (.readStep r) (s.gotoReader r (.test2 t (s.log.seq (slotOf t)) out))
  | readLapped :
      s.reader r = .test2 t v out → v ≠ committed t →
      Step s (.ret r t (-1) out) (s.gotoReader r .idle)
  | readOk :
      s.reader r = .test2 t v out → v = committed t →
      Step s (.ret r t 0 out) (s.gotoReader r .idle)

/-- `g_log` is statically zero. -/
def LogBuffer.zero : LogBuffer := ⟨0, fun _ => 0, fun _ _ => 0⟩

def start (W R : Type) : State W R := ⟨.zero, fun _ => .idle, fun _ => .idle⟩

/-- Any number of writers and readers on one log. -/
def machine (W R : Type) [DecidableEq W] [DecidableEq R] : System (State W R) (Act W R) where
  init s := s = start W R
  step := Step

/-- The ticket and the entry of a draw. -/
def Act.drawn : Act W R → Option (UInt64 × Entry)
  | .draw _ t e => some (t, e)
  | _ => none

/-! ## Tickets, slots and sequence numbers -/

theorem slotOf_eq_iff {t u : UInt64} :
    slotOf t = slotOf u ↔ t.toNat % logSlots = u.toNat % logSlots := by
  have hslot : ∀ t : UInt64, (slotOf t).val = t.toNat % logSlots := by
    intro t
    show (t &&& (4096 - 1)).toNat = t.toNat % 2 ^ 12
    rw [UInt64.toNat_and, ← Nat.and_two_pow_sub_one_eq_mod]
    rfl
  rw [Fin.ext_iff, hslot, hslot]

/-- Below `2 ^ 62` the sequence numbers do not wrap. -/
theorem toNat_writing {t : UInt64} (h : t.toNat < 2 ^ 62) : (writing t).toNat = 2 * t.toNat + 1 := by
  simp only [writing, UInt64.toNat_add, UInt64.toNat_mul, UInt64.toNat_ofNat]
  omega

theorem toNat_committed {t : UInt64} (h : t.toNat < 2 ^ 62) :
    (committed t).toNat = 2 * t.toNat + 2 := by
  simp only [committed, UInt64.toNat_add, UInt64.toNat_mul, UInt64.toNat_ofNat]
  omega

theorem writing_inj {t u : UInt64} (ht : t.toNat < 2 ^ 62) (hu : u.toNat < 2 ^ 62)
    (h : writing t = writing u) : t = u := by
  have := congrArg UInt64.toNat h
  rw [toNat_writing ht, toNat_writing hu] at this
  exact UInt64.toNat_inj.mp (by omega)

theorem committed_inj {t u : UInt64} (ht : t.toNat < 2 ^ 62) (hu : u.toNat < 2 ^ 62)
    (h : committed t = committed u) : t = u := by
  have := congrArg UInt64.toNat h
  rw [toNat_committed ht, toNat_committed hu] at this
  exact UInt64.toNat_inj.mp (by omega)

theorem writing_ne_committed {t u : UInt64} (ht : t.toNat < 2 ^ 62) (hu : u.toNat < 2 ^ 62) :
    writing t ≠ committed u := by
  intro h
  have := congrArg UInt64.toNat h
  rw [toNat_writing ht, toNat_committed hu] at this
  omega

theorem committed_ne_zero {t : UInt64} (ht : t.toNat < 2 ^ 62) : committed t ≠ 0 := by
  intro h
  have := congrArg UInt64.toNat h
  rw [toNat_committed ht] at this
  simp at this

end Logger
