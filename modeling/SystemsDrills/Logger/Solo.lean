import SystemsDrills.Logger.Machine

/-!
# Calls that run alone

What a whole call of `log_write` or `log_read` does when nothing comes between
its steps.  Both always return.
-/

namespace Logger

open Transition

variable {W R : Type}

@[simp] theorem State.setLog_setLog (s : State W R) (log log' : LogBuffer) :
    (s.setLog log).setLog log' = s.setLog log' :=
  rfl

/-- The log after an entry was copied in. -/
def LogBuffer.setEntry (log : LogBuffer) (j : Fin logSlots) (e : Entry) : LogBuffer :=
  { log with entry := Function.update log.entry j e }

/-- The log after a call of `log_write(e)` that ran alone. -/
def LogBuffer.logged (log : LogBuffer) (e : Entry) : LogBuffer :=
  (log.setEntry (slotOf log.head) e).draw.store (slotOf log.head) (committed log.head)

theorem LogBuffer.logged_entry_self (log : LogBuffer) (e : Entry) :
    (log.logged e).entry (slotOf log.head) = e :=
  Function.update_self ..

/-- The steps of a whole call of `log_write`. -/
def writeActs (w : W) (t : UInt64) (e : Entry) : List (Act W R) :=
  [Act.writeCall w e, Act.draw w t e, Act.mark w t] ++
    (List.replicate entryBytes (Act.writeCopy w) ++ [Act.commit w t])

theorem drawn_writeActs (w : W) (t : UInt64) (e : Entry) :
    (writeActs w t e : List (Act W R)).filterMap Act.drawn = [(t, e)] := by
  rw [writeActs, List.filterMap_append, List.filterMap_append, List.filterMap_replicate_of_none rfl]
  rfl

/-- The steps of a whole call of `log_read` that succeeds. -/
def readActs (r : R) (t : UInt64) (out : Entry) : List (Act W R) :=
  [Act.readCall r t, Act.firstLoad r, Act.readStep r] ++
    (List.replicate entryBytes (Act.readStep r) ++ [Act.readStep r, Act.ret r t 0 out])

theorem drawn_readActs (r : R) (t : UInt64) (out : Entry) :
    (readActs r t out : List (Act W R)).filterMap Act.drawn = [] := by
  rw [readActs, List.filterMap_append, List.filterMap_append, List.filterMap_replicate_of_none rfl]
  rfl

theorem ret_mem_readActs (r : R) (t : UInt64) (out : Entry) :
    Act.ret r t 0 out ∈ (readActs r t out : List (Act W R)) := by
  simp [readActs]

section Places

variable [DecidableEq W]

@[simp] theorem State.gotoWriter_self (s : State W R) (w : W) (p : WriterPc) :
    (s.gotoWriter w p).writer w = p :=
  Function.update_self ..

@[simp] theorem State.gotoWriter_gotoWriter (s : State W R) (w : W) (p q : WriterPc) :
    (s.gotoWriter w p).gotoWriter w q = s.gotoWriter w q := by
  simp [gotoWriter]

@[simp] theorem State.setLog_gotoWriter (s : State W R) (w : W) (p : WriterPc) (log : LogBuffer) :
    (s.gotoWriter w p).setLog log = (s.setLog log).gotoWriter w p :=
  rfl

theorem State.gotoWriter_eq_self {s : State W R} {w : W} {p : WriterPc} (h : s.writer w = p) :
    s.gotoWriter w p = s := by
  rw [gotoWriter, ← h, Function.update_eq_self]

variable [DecidableEq R]

omit [DecidableEq W]

@[simp] theorem State.gotoReader_self (s : State W R) (r : R) (p : ReaderPc) :
    (s.gotoReader r p).reader r = p :=
  Function.update_self ..

@[simp] theorem State.gotoReader_gotoReader (s : State W R) (r : R) (p q : ReaderPc) :
    (s.gotoReader r p).gotoReader r q = s.gotoReader r q := by
  simp [gotoReader]

theorem State.gotoReader_eq_self {s : State W R} {r : R} {p : ReaderPc} (h : s.reader r = p) :
    s.gotoReader r p = s := by
  rw [gotoReader, ← h, Function.update_eq_self]

end Places

variable [DecidableEq W] [DecidableEq R]

/-- The writer's `memcpy`, up to the bytes in `done`. -/
theorem exec_writeCopy {s : State W R} {w : W} {t : UInt64} {e : Entry}
    (hpc : s.writer w = .copy t e ∅) (done : Finset (Fin entryBytes)) :
    (machine W R).Exec s (List.replicate done.card (.writeCopy w))
      ((s.setLog (s.log.setEntry (slotOf t)
        (done.piecewise e (s.log.entry (slotOf t))))).gotoWriter w (.copy t e done)) := by
  induction done using Finset.induction_on with
  | empty =>
      refine .of_eq ?_
      rw [Finset.piecewise_empty, LogBuffer.setEntry, Function.update_eq_self]
      exact (State.gotoWriter_eq_self hpc).symm
  | insert i done hi ih =>
      rw [Finset.card_insert_of_notMem hi, List.replicate_succ']
      refine ih.append (.cons (.writeCopy (i := i) (State.gotoWriter_self ..) hi) (.of_eq ?_))
      rw [Finset.piecewise_insert]
      simp [LogBuffer.copyByte, LogBuffer.setEntry]

/-- The reader's `memcpy`, up to the bytes in `done`. -/
theorem exec_readCopy {s : State W R} {r : R} {t : UInt64} {out : Entry}
    (hpc : s.reader r = .copy t out ∅) (done : Finset (Fin entryBytes)) :
    (machine W R).Exec s (List.replicate done.card (.readStep r))
      (s.gotoReader r (.copy t (done.piecewise (s.log.entry (slotOf t)) out) done)) := by
  induction done using Finset.induction_on with
  | empty =>
      refine .of_eq ?_
      rw [Finset.piecewise_empty]
      exact (State.gotoReader_eq_self hpc).symm
  | insert i done hi ih =>
      rw [Finset.card_insert_of_notMem hi, List.replicate_succ']
      refine ih.append (.cons (.readCopy (i := i) (State.gotoReader_self ..) hi) (.of_eq ?_))
      rw [Finset.piecewise_insert]
      simp

/-- A call of `log_write` that runs alone. -/
theorem exec_write {s : State W R} {w : W} (hpc : s.writer w = .idle) (e : Entry) :
    (machine W R).Exec s (writeActs w s.log.head e) (s.setLog (s.log.logged e)) := by
  -- The log with the slot marked.
  let log := s.log.draw.store (slotOf s.log.head) (writing s.log.head)
  have hmark : (machine W R).Exec s [.writeCall w e, .draw w s.log.head e, .mark w s.log.head]
      ((s.setLog log).gotoWriter w (.copy s.log.head e ∅)) :=
    .cons (.writeCall hpc) (.cons (.draw (State.gotoWriter_self ..))
      (.cons (.mark (State.gotoWriter_self ..)) (.of_eq (by simp [log]))))
  have hcopy := exec_writeCopy (R := R) (State.gotoWriter_self (s.setLog log) w
    (.copy s.log.head e ∅)) Finset.univ
  rw [Finset.card_univ, Fintype.card_fin] at hcopy
  refine hmark.append (hcopy.append (.cons (.commit (State.gotoWriter_self ..)) (.of_eq ?_)))
  simp only [Finset.piecewise_univ, State.setLog_gotoWriter, State.gotoWriter_gotoWriter,
    State.setLog_setLog, State.gotoWriter_log, State.setLog_log]
  rw [State.gotoWriter_eq_self (by exact hpc)]
  simp [log, LogBuffer.logged, LogBuffer.store, LogBuffer.draw, LogBuffer.setEntry]

/-- Any number of calls of `log_write` in a row. -/
theorem exec_writes {s : State W R} {w : W} (hpc : s.writer w = .idle) (e : Entry) (m : Nat) :
    ∃ as s', (machine W R).Exec s as s' ∧ s'.log.head = s.log.head + UInt64.ofNat m ∧
      s'.writer = s.writer ∧ s'.reader = s.reader ∧
      as.filterMap Act.drawn = (List.range m).map fun i => (s.log.head + UInt64.ofNat i, e) := by
  induction m with
  | zero => exact ⟨[], s, .nil, by simp, rfl, rfl, rfl⟩
  | succ m ih =>
      obtain ⟨as, s', hexec, hhead, hwriter, hreader, hdrawn⟩ := ih
      refine ⟨_, _, hexec.append (exec_write (by rw [hwriter]; exact hpc) e), ?_, hwriter, hreader, ?_⟩
      · show s'.log.head + 1 = s.log.head + UInt64.ofNat (m + 1)
        rw [hhead, UInt64.ofNat_add, UInt64.add_assoc]
        rfl
      · rw [List.filterMap_append, hdrawn, drawn_writeActs, hhead, List.range_succ, List.map_append]
        rfl

/-- A call of `log_read` that runs alone on a committed slot. -/
theorem exec_read {s : State W R} {r : R} (hpc : s.reader r = .idle) {t : UInt64}
    (hc : s.log.seq (slotOf t) = committed t) :
    (machine W R).Exec s (readActs r t (s.log.entry (slotOf t))) s := by
  have hcall : Step s (.readCall r t) (s.gotoReader r (.load1 t fun _ => 0)) := .readCall hpc
  have hstart : (machine W R).Exec s [.readCall r t, .firstLoad r, .readStep r]
      (s.gotoReader r (.copy t (fun _ => 0) ∅)) :=
    .cons hcall (.cons (.firstLoad (State.gotoReader_self ..))
      (.cons (.readStart (State.gotoReader_self ..) hc) (.of_eq (by simp))))
  have hcopy := exec_readCopy (W := W) (State.gotoReader_self s r (.copy t (fun _ => 0) ∅))
    Finset.univ
  rw [Finset.card_univ, Fintype.card_fin, Finset.piecewise_univ] at hcopy
  refine hstart.append (hcopy.append (.cons (.secondLoad (State.gotoReader_self ..))
    (.cons (.readOk (State.gotoReader_self ..) hc) (.of_eq ?_))))
  simp only [State.gotoReader_gotoReader]
  exact State.gotoReader_eq_self hpc

/-- The first record is written and then read back. -/
theorem exec_write_read (w : W) (r : R) (e : Entry) :
    ∃ as, (machine W R).Exec (start W R) as ((start W R).setLog (LogBuffer.zero.logged e)) ∧
      .ret r 0 0 e ∈ as ∧ as.filterMap Act.drawn = [(0, e)] := by
  have hwrite := exec_write (s := start W R) (w := w) rfl e
  have hread := exec_read (s := (start W R).setLog (LogBuffer.zero.logged e)) (r := r) rfl
    (t := 0) rfl
  rw [State.setLog_log, show slotOf 0 = slotOf LogBuffer.zero.head from rfl,
    LogBuffer.logged_entry_self] at hread
  refine ⟨_, hwrite.append hread, List.mem_append_right _ (ret_mem_readActs ..), ?_⟩
  rw [List.filterMap_append, drawn_writeActs, drawn_readActs]
  rfl

end Logger
