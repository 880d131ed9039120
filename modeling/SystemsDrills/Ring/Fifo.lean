import SystemsDrills.Lib.Calls
import SystemsDrills.Ring.Spsc

/-!
# The ring is a bounded queue

`Spsc.machine` refines a queue of at most `capacity` values.  The queue of a
moment is what was written and not yet read.  A write that succeeds takes effect
at its store to `head`, a read that succeeds at its store to `tail`, and a call
that fails at the moment it loaded the other side's counter.

The buffer enters here.  `State.Holds` says that the values between `tail` and
`head` are in their slots, that the producer's value is in its slot before
`head` passes it, and that the consumer has taken the right value before `tail`
passes it.
-/

namespace Spsc

open Transition Cyclic

/-! ## The contents of the buffer -/

/-- The values `ws` were written, the first `R` of them were read, and the
buffer holds the others. -/
structure State.Holds (s : State) (ws : List UInt64) (R : Nat) : Prop where
  counts : s.Counts ws.length R
  slots : s.ring.buf.length = s.ring.capacity.toNat
  items : ∀ i, R ≤ i → i < ws.length → s.ring.buf[i % s.ring.capacity.toNat]? = ws[i]?
  stored : ∀ v h, s.prod = .storeHead v h →
    s.ring.buf[ws.length % s.ring.capacity.toNat]? = some v
  loaded : ∀ t, s.cons = .storeTail t → ws[R]? = some s.out

theorem State.Holds.capacity_pos {s : State} {ws : List UInt64} {R : Nat} (hs : s.Holds ws R) :
    0 < s.ring.capacity.toNat := by
  obtain ⟨k, hk⟩ := hs.counts.shaped.two_pow
  exact hk ▸ Nat.two_pow_pos k

/-- The slot the producer is about to fill is `ws.length % capacity`. -/
theorem State.Holds.slot_head {s : State} {ws : List UInt64} {R : Nat} (hs : s.Holds ws R) :
    s.ring.slot s.ring.head = ws.length % s.ring.capacity.toNat := by
  rw [hs.counts.head, hs.counts.shaped.slot_ofNat]

/-- A store into the slot of `head`, when there is room, moves no value of the
queue. -/
theorem State.Holds.put {s : State} {ws : List UInt64} {R : Nat} (hs : s.Holds ws R) (v : UInt64)
    (hroom : ws.length < R + s.ring.capacity.toNat) :
    ((s.ring.put s.ring.head v).buf[ws.length % s.ring.capacity.toNat]? = some v) ∧
    ∀ i, R ≤ i → i < ws.length →
      (s.ring.put s.ring.head v).buf[i % s.ring.capacity.toNat]? = ws[i]? := by
  simp only [Ring.put_buf, hs.slot_head]
  refine ⟨?_, ?_⟩
  · rw [List.getElem?_set_self]
    rw [hs.slots]
    exact Nat.mod_lt _ hs.capacity_pos
  · intro i hi hiW
    rw [List.getElem?_set_ne (mod_ne hiW (by omega)).symm]
    exact hs.items i hi hiW

/-- A load from the slot of `tail`, when the queue is not empty, yields its
oldest value. -/
theorem State.Holds.yields {s : State} {ws : List UInt64} {R : Nat} (hs : s.Holds ws R)
    {v : UInt64} (hsome : R < ws.length) (h : s.ring.Yields s.ring.tail v) : ws[R]? = some v := by
  have hslot : s.ring.slot s.ring.tail = R % s.ring.capacity.toNat := by
    rw [hs.counts.tail, hs.counts.shaped.slot_ofNat]
  have hitem := hs.items R le_rfl hsome
  rw [List.getElem?_eq_getElem hsome] at hitem ⊢
  rw [Ring.Yields, hslot] at h
  rw [h _ hitem]

/-- One step: a publish of the producer appends its value, a publish of the
consumer returns the oldest value. -/
theorem State.Holds.step {s s' : State} {a : Act} {ws : List UInt64} {R : Nat} (hs : s.Holds ws R)
    (h : Step s a s') :
    s'.Holds (ws ++ a.written.toList) (R + a.returned.toList.length) ∧
      ∀ v ∈ a.returned, ws[R]? = some v := by
  have hcounts := hs.counts.step h
  rw [← List.length_append] at hcounts
  have hprod := hs.counts.prod
  have hcons := hs.counts.cons
  cases h with
  | writeCall hpc | writeLoadHead hpc | writeLoadTail hpc | writeFull hpc _ | writeRoom hpc _ =>
      simp only [Act.written, Act.returned, Option.toList_none, List.append_nil, List.length_nil,
        Nat.add_zero] at hcounts ⊢
      exact ⟨⟨hcounts, hs.slots, hs.items, nofun, hs.loaded⟩, nofun⟩
  | @writeStore _ h v hpc =>
      rw [hpc] at hprod
      obtain ⟨rfl, hroom⟩ := hprod
      obtain ⟨hnew, hold⟩ := hs.put v hroom
      simp only [Act.written, Act.returned, Option.toList_none, List.append_nil, List.length_nil,
        Nat.add_zero] at hcounts ⊢
      refine ⟨⟨hcounts, by simpa using hs.slots, hold, ?_, hs.loaded⟩, nofun⟩
      intro v' h' he
      injection he with hv hh
      exact hv ▸ hnew
  | @writePublish _ v h hpc =>
      refine ⟨⟨hcounts, hs.slots, ?_, nofun, ?_⟩, nofun⟩
      · intro i hi hiW
        show s.ring.buf[i % s.ring.capacity.toNat]? = (ws ++ [v])[i]?
        rcases Nat.lt_or_ge i ws.length with hlt | hge
        · rw [hs.items i hi hlt, List.getElem?_append_left hlt]
        · have hi : i = ws.length := by
            simp only [Act.written, Option.toList_some, List.length_append, List.length_cons,
              List.length_nil] at hiW
            omega
          rw [hi, hs.stored v h hpc, List.getElem?_concat_length]
      · intro t ht
        show (ws ++ [v])[R]? = some s.out
        have hR := hs.loaded t ht
        rw [List.getElem?_append_left (List.getElem?_eq_some_iff.mp hR).1, hR]
  | readCall hpc | readLoadTail hpc | readLoadHead hpc | readEmpty hpc _ | readSome hpc _ =>
      simp only [Act.written, Act.returned, Option.toList_none, List.append_nil, List.length_nil,
        Nat.add_zero] at hcounts ⊢
      exact ⟨⟨hcounts, hs.slots, hs.items, hs.stored, nofun⟩, nofun⟩
  | readLoad hpc hv =>
      rw [hpc] at hcons
      obtain ⟨rfl, hsome⟩ := hcons
      simp only [Act.written, Act.returned, Option.toList_none, List.append_nil, List.length_nil,
        Nat.add_zero] at hcounts ⊢
      exact ⟨⟨hcounts, hs.slots, hs.items, hs.stored, fun _ _ => hs.yields hsome hv⟩, nofun⟩
  | readPublish hpc =>
      simp only [Act.written, Option.toList_none, List.append_nil] at hcounts ⊢
      refine ⟨⟨hcounts, hs.slots, ?_, hs.stored, nofun⟩, ?_⟩
      · intro i hi hiW
        exact hs.items i (Nat.le_of_succ_le hi) hiW
      · intro v hv
        cases hv
        exact hs.loaded _ hpc

/-! ## The queue of a run -/

/-- What a step does to the queue. -/
def Act.fifoOp : Act → FifoOp UInt64
  | .writeTrue v => .enqueue v
  | .readTrue v => .dequeue v
  | _ => .silent

/-- A step of `ring_write`. -/
def Act.ofWrite : Act → Prop
  | .writeCall _ | .writeStep | .writeFalse | .writeTrue _ => True
  | _ => False

/-- A step of `ring_read`. -/
def Act.ofRead : Act → Prop
  | .readCall | .readStep | .readFalse | .readTrue _ => True
  | _ => False

/-- The start of a call of `ring_write`. -/
def Act.startsWrite : Act → Prop
  | .writeCall _ => True
  | _ => False

/-- The start of a call of `ring_read`. -/
def Act.startsRead : Act → Prop
  | .readCall => True
  | _ => False

section Runs

variable {n : Nat} (r : Run machine n)

/-- The values of the successful writes before moment `k`, in order. -/
def writes (k : Nat) : List UInt64 := r.seen Act.written k

/-- The values of the successful reads before moment `k`, in order. -/
def reads (k : Nat) : List UInt64 := r.seen Act.returned k

/-- The queue at moment `k`: what was written and not yet read. -/
def queue (k : Nat) : List UInt64 := (writes r k).drop (reads r k).length

theorem Step.capacity_eq {s s' : State} {a : Act} (h : Step s a s') :
    s'.ring.capacity = s.ring.capacity := by
  cases h <;> rfl

theorem capacity_run {k : Nat} (hk : k ≤ n) :
    (r.st k).ring.capacity = (r.st 0).ring.capacity :=
  r.induct_from (P := fun k => (r.st k).ring.capacity = (r.st 0).ring.capacity) rfl
    (fun _ _ _ h ih => h.capacity_eq.trans ih) (Nat.zero_le k) hk

variable (hbuf : (r.st 0).ring.buf.length = (r.st 0).ring.capacity.toNat)

include hbuf

/-- At every moment the buffer holds the queue, and what was read is a prefix of
what was written. -/
theorem holds_run {k : Nat} (hk : k ≤ n) :
    (r.st k).Holds (writes r k) (reads r k).length ∧ reads r k <+: writes r k := by
  refine r.induct_from (P := fun k => (r.st k).Holds (writes r k) (reads r k).length ∧
    reads r k <+: writes r k) ?_ ?_ (Nat.zero_le k) hk
  · obtain ⟨-, hprod, hcons⟩ := r.start
    refine ⟨⟨counts_start r.start, hbuf, fun i _ h => absurd h (by simp [writes]), ?_, ?_⟩,
      List.prefix_rfl⟩
    · intro v h hp
      rw [hprod] at hp
      cases hp
    · intro t ht
      rw [hcons] at ht
      cases ht
  · intro k _ _ h ⟨hs, hpre⟩
    obtain ⟨hs', hret⟩ := hs.step h
    have hw : writes r (k + 1) = writes r k ++ (r.act k).written.toList := r.seen_succ _ k
    have hr : reads r (k + 1) = reads r k ++ (r.act k).returned.toList := r.seen_succ _ k
    refine ⟨?_, ?_⟩
    · rw [hw, hr, List.length_append]
      exact hs'
    · rw [hw, hr]
      cases ha : (r.act k).returned with
      | none =>
          rw [Option.toList_none, List.append_nil]
          exact hpre.trans (List.prefix_append _ _)
      | some v => exact (prefix_concat hpre (hret v ha)).trans (List.prefix_append _ _)

theorem length_queue {k : Nat} (hk : k ≤ n) :
    (queue r k).length = ((r.st k).ring.head - (r.st k).ring.tail).toNat := by
  rw [(holds_run r hbuf hk).1.counts.occupancy, queue, List.length_drop]

/-- Every step of the machine is a step of the queue. -/
theorem fifoStep_run {k : Nat} (hk : k < n) :
    FifoStep (r.st 0).ring.capacity.toNat (queue r k) (r.act k).fifoOp (queue r (k + 1)) := by
  obtain ⟨hs, hpre⟩ := holds_run r hbuf hk.le
  obtain ⟨hs', hret⟩ := hs.step (r.next k hk)
  have hw : writes r (k + 1) = writes r k ++ (r.act k).written.toList := r.seen_succ _ k
  have hr : reads r (k + 1) = reads r k ++ (r.act k).returned.toList := r.seen_succ _ k
  have hcap := capacity_run r hk
  simp only [queue, hw, hr]
  cases ha : r.act k with
  | writeTrue v =>
      have hle := hs.counts.le
      have hroom := hs'.counts.fits
      rw [ha, hcap] at hroom
      simp only [Act.written, Act.returned, Option.toList_some, Option.toList_none,
        List.append_nil, List.length_append, List.length_cons, List.length_nil] at hroom ⊢
      rw [List.drop_append_of_le_length hle]
      exact .enqueue (by rw [List.length_drop]; omega)
  | readTrue v =>
      have hv := hret v (by rw [ha]; rfl)
      obtain ⟨hlt, hv⟩ := List.getElem?_eq_some_iff.mp hv
      simp only [Act.written, Act.returned, Option.toList_some, Option.toList_none,
        List.append_nil, List.length_append, List.length_cons, List.length_nil]
      rw [List.drop_eq_getElem_cons hlt, hv]
      exact .dequeue
  | _ =>
      simp only [Act.written, Act.returned, Option.toList_none, List.append_nil]
      exact .silent

/-! ## Calls that fail -/

omit hbuf

/-- `ring_write` before it has touched the ring. -/
def ProdPc.looking : ProdPc → Prop
  | .loadHead _ | .loadTail _ _ | .test _ _ _ => True
  | _ => False

/-- `ring_read` before it has touched the ring or `*out`. -/
def ConsPc.looking : ConsPc → Prop
  | .loadTail | .loadHead _ | .test _ _ => True
  | _ => False

/-- The producer's locals are the counters of `u`. -/
def ProdPc.Saw (p : ProdPc) (u : State) : Prop :=
  ∃ v, p = .test v u.ring.head u.ring.tail

/-- The consumer's locals are the counters of `u`. -/
def ConsPc.Saw (c : ConsPc) (u : State) : Prop :=
  c = .test u.ring.tail u.ring.head

theorem Step.looking_write {s s' : State} {a : Act} (h : Step s a s') (hl : s'.prod.looking) :
    (a.ofWrite → s'.ring = s.ring) ∧ (a.startsWrite ∨ s.prod.looking) := by
  cases h with
  | writeCall hpc => exact ⟨fun _ => rfl, .inl trivial⟩
  | writeLoadHead hpc | writeLoadTail hpc => exact ⟨fun _ => rfl, .inr (by rw [hpc]; trivial)⟩
  | writeFull hpc _ | writeRoom hpc _ | writeStore hpc | writePublish hpc => exact hl.elim
  | _ => exact ⟨False.elim, .inr hl⟩

theorem Step.looking_read {s s' : State} {a : Act} (h : Step s a s') (hl : s'.cons.looking) :
    (a.ofRead → (s'.ring, s'.out) = (s.ring, s.out)) ∧ (a.startsRead ∨ s.cons.looking) := by
  cases h with
  | readCall hpc => exact ⟨fun _ => rfl, .inl trivial⟩
  | readLoadTail hpc | readLoadHead hpc => exact ⟨fun _ => rfl, .inr (by rw [hpc]; trivial)⟩
  | readEmpty hpc _ | readSome hpc _ | readLoad hpc _ | readPublish hpc => exact hl.elim
  | _ => exact ⟨False.elim, .inr hl⟩

/-- The counters the producer tests are those of the moment it loaded `tail`. -/
theorem Step.saw_write {s s' : State} {a : Act} (hr : machine.Reachable s) (h : Step s a s')
    (ht : ∃ v h t, s'.prod = .test v h t) :
    s'.prod.Saw s' ∨ ¬ a.startsWrite ∧ s'.prod = s.prod := by
  obtain ⟨v, hd, t, ht⟩ := ht
  cases h with
  | writeLoadTail hpc =>
      obtain ⟨W, R, hc⟩ := counts_invariant.reachable hr
      have hhead := hc.prod
      rw [hpc] at hhead
      exact .inl ⟨_, by rw [show _ = s.ring.head from hhead]⟩
  | writeCall hpc | writeLoadHead hpc | writeFull hpc _ | writeRoom hpc _ | writeStore hpc
  | writePublish hpc => cases ht
  | _ => exact .inr ⟨id, rfl⟩

/-- The counters the consumer tests are those of the moment it loaded `head`. -/
theorem Step.saw_read {s s' : State} {a : Act} (hr : machine.Reachable s) (h : Step s a s')
    (ht : ∃ t h, s'.cons = .test t h) :
    s'.cons.Saw s' ∨ ¬ a.startsRead ∧ s'.cons = s.cons := by
  obtain ⟨t, hd, ht⟩ := ht
  cases h with
  | readLoadHead hpc =>
      obtain ⟨W, R, hc⟩ := counts_invariant.reachable hr
      have htail := hc.cons
      rw [hpc] at htail
      exact .inl (by rw [show _ = s.ring.tail from htail]; rfl)
  | readCall hpc | readLoadTail hpc | readEmpty hpc _ | readSome hpc _ | readLoad hpc _
  | readPublish hpc => cases ht
  | _ => exact .inr ⟨id, rfl⟩

theorem Step.writeFalse_inv {s s' : State} (h : Step s .writeFalse s') :
    s'.ring = s.ring ∧ ∃ v h t, s.prod = .test v h t ∧ h - t = s.ring.capacity := by
  cases h with
  | writeFull hpc hfull => exact ⟨rfl, _, _, _, hpc, hfull⟩

theorem Step.readFalse_inv {s s' : State} (h : Step s .readFalse s') :
    (s'.ring, s'.out) = (s.ring, s.out) ∧ ∃ t, s.cons = .test t t := by
  cases h with
  | readEmpty hpc hempty => exact ⟨rfl, _, hempty ▸ hpc⟩

include hbuf

/-- A write that fails found the queue full at a moment of the call, and has not
touched the ring. -/
theorem full_of_writeFalse {j : Nat} (hj : j < n) (hf : r.act j = .writeFalse) :
    ∃ i m, r.Last Act.startsWrite i j ∧ i < m ∧ m ≤ j ∧
      (queue r m).length = (r.st 0).ring.capacity.toNat ∧
      r.Quiet Act.ofWrite State.ring i (j + 1) := by
  have hstep := r.next j hj
  rw [hf] at hstep
  obtain ⟨hring, v, h, t, hpc, hfull⟩ := Step.writeFalse_inv hstep
  have hidle : ∀ s, machine.init s → s.prod = .idle := fun s hs => hs.2.1
  obtain ⟨i, hlast, hquiet⟩ := r.exists_call (I := fun s => s.prod.looking) (f := State.ring)
    (fun s hs hl => by rw [hidle s hs] at hl; exact hl)
    (fun s a s' hs hl => Step.looking_write hs hl) hj.le (by rw [hpc]; trivial)
  obtain ⟨m, hm, ⟨v', hsaw⟩, hnone⟩ := r.exists_snapshot (C := Act.startsWrite)
    (I := fun s => ∃ v h t, s.prod = .test v h t) (Q := fun s u => s.prod.Saw u)
    (fun s hs ⟨_, _, _, ht⟩ => by rw [hidle s hs] at ht; cases ht)
    (fun s a s' hr hs ht => (Step.saw_write hr hs ht).imp_right fun ⟨hc, he⟩ =>
      ⟨hc, by rwa [he] at ht, fun u hu => by rwa [he]⟩) hj.le ⟨v, h, t, hpc⟩
  refine ⟨i, m, hlast, hlast.lt_moment hnone, hm, ?_, hquiet.succ fun _ => hring⟩
  rw [hpc] at hsaw
  obtain ⟨-, rfl, rfl⟩ := ProdPc.test.inj hsaw
  rw [length_queue r hbuf (hm.trans hj.le), hfull, capacity_run r hj.le]

/-- A read that fails found the queue empty at a moment of the call, and has
touched neither the ring nor `*out`. -/
theorem empty_of_readFalse {j : Nat} (hj : j < n) (hf : r.act j = .readFalse) :
    ∃ i m, r.Last Act.startsRead i j ∧ i < m ∧ m ≤ j ∧ queue r m = [] ∧
      r.Quiet Act.ofRead (fun s => (s.ring, s.out)) i (j + 1) := by
  have hstep := r.next j hj
  rw [hf] at hstep
  obtain ⟨hsame, t, hpc⟩ := Step.readFalse_inv hstep
  have hidle : ∀ s, machine.init s → s.cons = .idle := fun s hs => hs.2.2
  obtain ⟨i, hlast, hquiet⟩ := r.exists_call (I := fun s => s.cons.looking)
    (f := fun s => (s.ring, s.out))
    (fun s hs hl => by rw [hidle s hs] at hl; exact hl)
    (fun s a s' hs hl => Step.looking_read hs hl) hj.le (by rw [hpc]; trivial)
  obtain ⟨m, hm, hsaw, hnone⟩ := r.exists_snapshot (C := Act.startsRead)
    (I := fun s => ∃ t h, s.cons = .test t h) (Q := fun s u => s.cons.Saw u)
    (fun s hs ⟨_, _, ht⟩ => by rw [hidle s hs] at ht; cases ht)
    (fun s a s' hr hs ht => (Step.saw_read hr hs ht).imp_right fun ⟨hc, he⟩ =>
      ⟨hc, by rwa [he] at ht, fun u hu => by rwa [he]⟩) hj.le ⟨t, t, hpc⟩
  refine ⟨i, m, hlast, hlast.lt_moment hnone, hm, ?_, hquiet.succ fun _ => hsame⟩
  rw [hpc] at hsaw
  obtain ⟨ht, hh⟩ := ConsPc.test.inj hsaw
  rw [← List.length_eq_zero_iff, length_queue r hbuf (hm.trans hj.le), ← ht, ← hh, UInt64.sub_self]
  rfl

/-- The ring is linearizable to a queue of at most `capacity` values.  What is
read is a prefix of what is written, `head - tail` is the length of the queue,
every step of the machine is a step of the
queue, and a call that fails found the queue full, or empty, at a moment of the
call and changes nothing. -/
theorem ring_linearizable :
    (∀ k ≤ n, reads r k <+: writes r k ∧
      (queue r k).length = ((r.st k).ring.head - (r.st k).ring.tail).toNat) ∧
    (∀ k < n, FifoStep (r.st 0).ring.capacity.toNat (queue r k) (r.act k).fifoOp
      (queue r (k + 1))) ∧
    (∀ j < n, r.act j = .writeFalse →
      ∃ i m, r.Last Act.startsWrite i j ∧ i < m ∧ m ≤ j ∧
        (queue r m).length = (r.st 0).ring.capacity.toNat ∧
        r.Quiet Act.ofWrite State.ring i (j + 1)) ∧
    (∀ j < n, r.act j = .readFalse →
      ∃ i m, r.Last Act.startsRead i j ∧ i < m ∧ m ≤ j ∧ queue r m = [] ∧
        r.Quiet Act.ofRead (fun s => (s.ring, s.out)) i (j + 1)) :=
  ⟨fun _ hk => ⟨(holds_run r hbuf hk).2, length_queue r hbuf hk⟩, fun _ hk => fifoStep_run r hbuf hk,
    fun _ hj hf => full_of_writeFalse r hbuf hj hf, fun _ hj hf => empty_of_readFalse r hbuf hj hf⟩

end Runs

/-- On a ring of one slot: a read of the empty ring, a write, a write into the
full ring, a read. -/
theorem ring_linearizable_one :
    ∃ r : Run machine 20,
      (r.st 0).ring.buf.length = (r.st 0).ring.capacity.toNat ∧
      writes r 20 = [7] ∧ reads r 20 = [7] ∧
      (∃ m ≤ 3, queue r m = []) ∧ ∃ m ≤ 13, (queue r m).length = 1 := by
  let s0 : State := ⟨⟨1, 0, [0], 0, 0⟩, 0, .idle, .idle⟩
  have h0 : machine.init s0 := ⟨⟨fun _ => some [0], 1, by decide⟩, rfl, rfl⟩
  let s1 : State := ⟨⟨1, 0, [7], 1, 0⟩, 0, .idle, .idle⟩
  have hfill : machine.Exec s0
      [.readCall, .readStep, .readStep, .readFalse,
        .writeCall 7, .writeStep, .writeStep, .writeStep, .writeStep, .writeTrue 7] s1 :=
    .cons (.readCall rfl) <| .cons (.readLoadTail rfl) <| .cons (.readLoadHead rfl) <|
    .cons (.readEmpty rfl rfl) <|
    .cons (.writeCall rfl) <| .cons (.writeLoadHead rfl) <| .cons (.writeLoadTail rfl) <|
    .cons (.writeRoom rfl (by decide)) <| .cons (.writeStore rfl) <| .cons (.writePublish rfl) <|
    .of_eq (by decide)
  have hyield : s1.ring.Yields 0 7 := by
    have hslot : s1.ring.buf[s1.ring.slot 0]? = some 7 := by decide
    intro x hx
    rw [hslot] at hx
    exact Option.some.inj hx
  have hdrain : machine.Exec s1
      [.writeCall 8, .writeStep, .writeStep, .writeFalse,
        .readCall, .readStep, .readStep, .readStep, .readStep, .readTrue 7]
      ⟨⟨1, 0, [7], 1, 1⟩, 7, .idle, .idle⟩ :=
    .cons (.writeCall rfl) <| .cons (.writeLoadHead rfl) <| .cons (.writeLoadTail rfl) <|
    .cons (.writeFull rfl (by decide)) <|
    .cons (.readCall rfl) <| .cons (.readLoadTail rfl) <| .cons (.readLoadHead rfl) <|
    .cons (.readSome rfl (by decide)) <| .cons (.readLoad rfl hyield) <| .cons (.readPublish rfl) <|
    .of_eq (by decide)
  obtain ⟨r, hst, -, hact⟩ := (hfill.append hdrain).exists_run h0
  have hbuf : (r.st 0).ring.buf.length = (r.st 0).ring.capacity.toNat := by rw [hst]; rfl
  obtain ⟨-, -, hfull, hempty⟩ := ring_linearizable r hbuf
  obtain ⟨_, m, -, -, hm, hm', -⟩ := hempty 3 (by decide) (Run.act_of_map_act hact rfl)
  obtain ⟨_, m', -, -, hle, hlen, -⟩ := hfull 13 (by decide) (Run.act_of_map_act hact rfl)
  rw [hst] at hlen
  exact ⟨r, hbuf, Run.seen_of_map_act _ hact, Run.seen_of_map_act _ hact, ⟨m, hm, hm'⟩,
    m', hle, hlen⟩

end Spsc
