import SystemsDrills.Rcu.Machine

/-!
# Calls that run alone

A call of `translate` or `region_add` that nothing interrupts returns what the
sequential `lookup` and `regionAdd` return.  So the steps of the machine are
those of the functions that the results about a single table are about, and both
calls run to their end when they are left alone.
-/

namespace Rcu

open Transition GuestMemory GuestMemory.Sorted Search

variable {W : Type} {s : State W} {t : RegionTable}

theorem State.reads_of_live {p : Nat} (h : s.heap p = .live t) : s.Reads p t := by
  intro t' ht'
  rw [h] at ht'
  exact Cell.live.inj ht'

theorem State.ne_of_live_of_fresh {p q : Nat} (hp : s.heap p = .live t)
    (hq : s.heap q = .fresh) : p ≠ q := by
  intro h
  rw [h, hq] at hp
  cases hp

@[simp] theorem State.gotoReader_self (s : State W) (i : Fin maxReaders) (pc : ReaderPc) :
    (s.gotoReader i pc).reader i = pc :=
  Function.update_self ..

@[simp] theorem State.gotoReader_gotoReader (s : State W) (i : Fin maxReaders)
    (pc pc' : ReaderPc) : (s.gotoReader i pc).gotoReader i pc' = s.gotoReader i pc' := by
  simp [gotoReader]

theorem State.gotoReader_eq_self {i : Fin maxReaders} {pc : ReaderPc} (h : s.reader i = pc) :
    s.gotoReader i pc = s := by
  rw [gotoReader, ← h, Function.update_eq_self]

@[simp] theorem State.setSeq_gotoReader (s : State W) (i : Fin maxReaders) (pc : ReaderPc)
    (v : UInt64) : (s.gotoReader i pc).setSeq i v = (s.setSeq i v).gotoReader i pc :=
  rfl

@[simp] theorem State.setSeq_setSeq (s : State W) (i : Fin maxReaders) (v v' : UInt64) :
    (s.setSeq i v).setSeq i v' = s.setSeq i v' := by
  simp [setSeq]

@[simp] theorem State.setHeap_setHeap (s : State W) (p : Nat) (c c' : Cell) :
    (s.setHeap p c).setHeap p c' = s.setHeap p c' := by
  simp [setHeap]

variable [DecidableEq W]

@[simp] theorem State.setHeap_gotoWriter (s : State W) (w : W) (pc : WriterPc) (p : Nat)
    (c : Cell) : (s.gotoWriter w pc).setHeap p c = (s.setHeap p c).gotoWriter w pc :=
  rfl

@[simp] theorem State.setLock_gotoWriter (s : State W) (w : W) (pc : WriterPc) (l : Option W) :
    (s.gotoWriter w pc).setLock l = (s.setLock l).gotoWriter w pc :=
  rfl

@[simp] theorem State.setCurrent_gotoWriter (s : State W) (w : W) (pc : WriterPc) (p : Nat) :
    (s.gotoWriter w pc).setCurrent p = (s.setCurrent p).gotoWriter w pc :=
  rfl

@[simp] theorem State.gotoWriter_self (s : State W) (w : W) (pc : WriterPc) :
    (s.gotoWriter w pc).writer w = pc :=
  Function.update_self ..

@[simp] theorem State.gotoWriter_gotoWriter (s : State W) (w : W) (pc pc' : WriterPc) :
    (s.gotoWriter w pc).gotoWriter w pc' = s.gotoWriter w pc' := by
  simp [gotoWriter]

/-! ## `translate` -/

/-- The binary search. -/
theorem exec_search {i : Fin maxReaders} {p : Nat} (hp : s.heap p = .live t) (gpa hva : UInt64)
    (lo hi : Nat) :
    ∃ as, (machine W).Exec (s.gotoReader i (.search p gpa hva lo hi)) as
      (s.gotoReader i
        (.endLoad p gpa hva (lookupAt t gpa hva (bisect (startsAtOrBelow t gpa) lo hi)))) := by
  have hreads : ∀ pc, (s.gotoReader i pc).Reads p t := fun _ => State.reads_of_live hp
  fun_induction bisect (startsAtOrBelow t gpa) lo hi with
  | case1 lo hi h mid hmid ih =>
      obtain ⟨as, hexec⟩ := ih
      have hstep := Step.searchRight (State.gotoReader_self s i (.search p gpa hva lo hi)) h
        (hreads _) hmid
      rw [State.gotoReader_gotoReader] at hstep
      exact ⟨_, .cons hstep hexec⟩
  | case2 lo hi h mid hmid ih =>
      obtain ⟨as, hexec⟩ := ih
      have hstep := Step.searchLeft (State.gotoReader_self s i (.search p gpa hva lo hi)) h
        (hreads _) (Bool.eq_false_iff.mpr hmid)
      rw [State.gotoReader_gotoReader] at hstep
      exact ⟨_, .cons hstep hexec⟩
  | case3 lo hi h =>
      have hstep := Step.searchEnd (State.gotoReader_self s i (.search p gpa hva lo hi)) h
        (hreads _)
      rw [State.gotoReader_gotoReader] at hstep
      exact ⟨_, .cons hstep .nil⟩

/-- A call of `translate` that runs alone returns what `lookup` returns on the
current table. -/
theorem exec_translate {i : Fin maxReaders} (hpc : s.reader i = .idle)
    (ht : s.heap s.current = .live t) (gpa hva : UInt64) :
    ∃ as, (machine W).Exec s (as ++ [.translateRet i gpa hva (lookup t gpa hva)])
      (s.setSeq i (s.seq i + 1 + 1)) := by
  -- The read section is open.
  let s1 := s.setSeq i (s.seq i + 1)
  have hbegin : (machine W).Exec s
      [.translateCall i gpa hva, .readerStep i, .readerStep i, .readerStep i, .readerStep i]
      (s1.gotoReader i (.search s.current gpa hva 0 t.n)) :=
    .cons (.translateCall hpc) (.cons (.beginLoad (State.gotoReader_self ..))
      (.cons (.beginStore (State.gotoReader_self ..))
        (.cons (.loadCurrent (State.gotoReader_self ..))
          (.cons (.readN (State.gotoReader_self ..) (State.reads_of_live ht))
            (.of_eq (by simp [s1]))))))
  obtain ⟨as, hsearch⟩ := exec_search (s := s1) (i := i) ht gpa hva 0 t.n
  have hload : (machine W).Exec (s1.gotoReader i (.endLoad s.current gpa hva (lookup t gpa hva)))
      [.readerStep i]
      (s1.gotoReader i (.endStore s.current gpa hva (lookup t gpa hva) (s1.seq i))) :=
    .cons (.endLoad (State.gotoReader_self ..)) (.of_eq (by simp))
  have hstore : (machine W).Exec
      (s1.gotoReader i (.endStore s.current gpa hva (lookup t gpa hva) (s1.seq i)))
      [.translateRet i gpa hva (lookup t gpa hva)] (s.setSeq i (s.seq i + 1 + 1)) := by
    refine .cons (.endStore (State.gotoReader_self ..)) (.of_eq ?_)
    rw [State.setSeq_gotoReader, State.gotoReader_gotoReader,
      State.gotoReader_eq_self (by exact hpc)]
    simp [s1]
  exact ⟨_, (hbegin.append (hsearch.append hload)).append hstore⟩

/-! ## `region_add` -/

variable {w : W}

/-- The stages in which the new table is built. -/
theorem exec_fill {old new : Nat} (hold : s.heap old = .live t) (hne : old ≠ new) (rgn : Region)
    (block : RegionTable) (pos : Nat) :
    ∃ as, (machine W).Exec
      ((s.setHeap new (.live block)).gotoWriter w (.fill rgn old new pos .low)) as
      ((s.setHeap new (.live (build block t rgn pos))).gotoWriter w (.publish rgn old new)) := by
  have hstep : ∀ (b : RegionTable) (stage : Stage), (machine W).step
      ((s.setHeap new (.live b)).gotoWriter w (.fill rgn old new pos stage)) (.writerStep w)
      ((s.setHeap new (.live (stage.fill b t rgn pos))).gotoWriter w
        (stage.after rgn old new pos)) := by
    intro b stage
    have hb : (s.setHeap new (.live b)).heap new = .live b := Function.update_self ..
    have ht : (s.setHeap new (.live b)).heap old = .live t := by
      rw [← hold]
      exact Function.update_of_ne hne ..
    have h := Step.fill (State.gotoWriter_self (s.setHeap new (.live b)) w
      (.fill rgn old new pos stage)) (State.reads_of_live ht) (State.reads_of_live hb)
    rwa [State.setHeap_gotoWriter, State.gotoWriter_gotoWriter, State.setHeap_setHeap] at h
  exact ⟨_, .cons (hstep _ .low) (.cons (hstep _ .region) (.cons (hstep _ .high)
    (.cons (hstep _ .count) .nil)))⟩

/-- `wait_for_readers`, with no reader inside. -/
theorem exec_wait (hseq : ∀ i, inSection (s.seq i) = false) (rgn : Region) (old : Nat) :
    ∀ k ≤ maxReaders, (machine W).Exec (s.gotoWriter w (.wait rgn old 0))
      (List.replicate k (.writerStep w)) (s.gotoWriter w (.wait rgn old k)) := by
  intro k hk
  induction k with
  | zero => exact .nil
  | succ k ih =>
      rw [List.replicate_succ']
      have hstep := Step.waitOut (i := ⟨k, hk⟩)
        (State.gotoWriter_self s w (.wait rgn old k)) (hseq _)
      rw [State.gotoWriter_gotoWriter] at hstep
      exact (ih (Nat.le_of_succ_le hk)).append (.cons hstep .nil)

/-- From the allocation to the unlock: the new table is built and published, and
the old one freed. -/
theorem exec_replace {old new : Nat} {block : RegionTable}
    (hseq : ∀ i, inSection (s.seq i) = false) (hold : s.heap old = .live t)
    (hnew : s.heap new = .fresh) (hlen : block.r.length = t.n + 1) (rgn : Region) (pos : Nat) :
    ∃ as, (machine W).Exec (s.gotoWriter w (.alloc rgn old pos)) as
      ((((s.setHeap new (.live (build block t rgn pos))).setCurrent new).setHeap old
        .freed).gotoWriter w (.unlock rgn .addOk)) := by
  have hne := State.ne_of_live_of_fresh hold hnew
  have hmalloc := Step.malloc (State.gotoWriter_self s w (.alloc rgn old pos))
    (State.reads_of_live hold) hnew hlen
  rw [State.setHeap_gotoWriter, State.gotoWriter_gotoWriter] at hmalloc
  obtain ⟨as, hfill⟩ := exec_fill (w := w) hold hne rgn block pos
  let s1 := s.setHeap new (.live (build block t rgn pos))
  have hpublish : (machine W).Exec (s1.gotoWriter w (.publish rgn old new))
      [.publish w rgn old new] ((s1.setCurrent new).gotoWriter w (.wait rgn old 0)) :=
    .cons (.publish (State.gotoWriter_self ..)) (.of_eq (by simp))
  have hwait := exec_wait (s := s1.setCurrent new) (w := w) hseq rgn old maxReaders le_rfl
  have hfree : (machine W).Exec ((s1.setCurrent new).gotoWriter w (.wait rgn old maxReaders))
      [.writerStep w, .free w old]
      (((s1.setCurrent new).setHeap old .freed).gotoWriter w (.unlock rgn .addOk)) :=
    .cons (.waitEnd (State.gotoWriter_self ..))
      (.cons (.free (State.gotoWriter_self ..)) (.of_eq (by simp)))
  exact ⟨_, .cons hmalloc (hfill.append (hpublish.append (hwait.append hfree)))⟩

/-- A call of `region_add` that runs alone returns what `regionAdd` returns, and
the current table afterwards is the one `regionAdd` gives. -/
theorem exec_regionAdd {new : Nat} (hpc : s.writer w = .idle) (hlock : s.lock = none)
    (hseq : ∀ i, inSection (s.seq i) = false) (ht : s.heap s.current = .live t)
    (hnew : s.heap new = .fresh) (malloc : Malloc) (rgn : Region) :
    ∃ as s', (machine W).Exec s (as ++ [.addRet w rgn (regionAdd malloc t rgn).1]) s' ∧
      s'.heap s'.current = .live (regionAdd malloc t rgn).2 := by
  have hcall : (machine W).Exec s [.addCall w rgn] (s.gotoWriter w (.check rgn)) :=
    .cons (.addCall hpc) .nil
  rw [regionAdd]
  cases hargs : checkArgs rgn with
  | some res =>
      exact ⟨_, _, hcall.append (.cons (.checkFail (State.gotoWriter_self ..) hargs) .nil), ht⟩
  | none =>
      -- From here on the lock is held, and every way out is through the unlock.
      let s1 := s.setLock (some w)
      have hlocked : (machine W).Exec (s.gotoWriter w (.check rgn))
          [.writerStep w, .writerStep w, .writerStep w] (s1.gotoWriter w (.scan rgn s.current)) :=
        .cons (.checkOk (State.gotoWriter_self ..) hargs)
          (.cons (.lock (State.gotoWriter_self ..) hlock)
            (.cons (.load (State.gotoWriter_self ..)) (.of_eq (by simp [s1]))))
      have hout : ∀ (s2 : State W) (res : AddResult), (machine W).Exec
          (s2.gotoWriter w (.unlock rgn res)) [.addRet w rgn res]
          ((s2.setLock none).gotoWriter w .idle) := fun s2 res =>
        .cons (.unlock (State.gotoWriter_self ..)) (.of_eq (by simp))
      cases hpos : findPos t rgn with
      | error res =>
          have hscan := Step.scanFail (State.gotoWriter_self s1 w (.scan rgn s.current))
            (State.reads_of_live ht) hpos
          rw [State.gotoWriter_gotoWriter] at hscan
          exact ⟨_, _, (hcall.append (hlocked.append (.cons hscan .nil))).append (hout ..), ht⟩
      | ok pos =>
          have hscan := Step.scanOk (State.gotoWriter_self s1 w (.scan rgn s.current))
            (State.reads_of_live ht) hpos
          rw [State.gotoWriter_gotoWriter] at hscan
          have halloc := hcall.append (hlocked.append (.cons hscan .nil))
          cases hblock : malloc.block (t.n + 1) with
          | none =>
              have hnomem := Step.nomem (State.gotoWriter_self s1 w (.alloc rgn s.current pos))
              rw [State.gotoWriter_gotoWriter] at hnomem
              exact ⟨_, _, (halloc.append (.cons hnomem .nil)).append (hout ..), ht⟩
          | some block =>
              obtain ⟨as, hreplace⟩ := exec_replace (s := s1) (w := w) hseq ht hnew
                (malloc.slots hblock) rgn pos
              refine ⟨_, _, (halloc.append hreplace).append (hout ..), ?_⟩
              -- The block that is freed is not the one that is published.
              show Function.update (Function.update s.heap new _) s.current _ new = _
              rw [Function.update_of_ne (State.ne_of_live_of_fresh ht hnew).symm,
                Function.update_self]

end Rcu
