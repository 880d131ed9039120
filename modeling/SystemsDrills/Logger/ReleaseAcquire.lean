import SystemsDrills.Lib.Exchange
import SystemsDrills.Logger.Seqlock

/-!
# The lock-free logger without sequential consistency

`log_write` and `log_read` of `CPU_logger/cpu_logger_lock_free.c` on the memory of
`SystemsDrills.Lib.Views`, with the memory orders of the source: the ticket is drawn by a relaxed
read-modify-write, the store that marks the slot is relaxed, the one that commits it is a release store,
a reader's first load of the sequence number has acquire and its second one is relaxed.  The bytes of an
entry are plain.  The places and the labels are those of `SystemsDrills.Logger.Machine`.

The two fences only add to what a thread knows or hands on, so a machine without them has more
executions.  They are left out here, and nothing is missing: what makes the copies safe as long as the
tickets do not wrap is the release store that commits.
-/

namespace Logger

namespace ReleaseAcquire

open Transition Views

/-! ## The machine -/

inductive Loc where
  | head
  | seq (j : Fin logSlots)
  | byte (j : Fin logSlots) (i : Fin entryBytes)
deriving DecidableEq

structure State (W R : Type) where
  mem : Memory Loc (W ⊕ R) UInt64
  writer : W → WriterPc
  reader : R → ReaderPc

variable {W R : Type}

section

variable [DecidableEq W] [DecidableEq R]

inductive Step : State W R → Act W R → State W R → Prop where
  | writeCall :
      s.writer w = .idle →
      Step s (.writeCall w e) { s with writer := Function.update s.writer w (.draw e) }
  | draw :
      s.writer w = .draw e → s.mem.Last .head msg →
      Step s (.draw w msg.val e)
        { s with
          mem := s.mem.relaxedExchange (.inl w) .head msg (msg.val + 1)
          writer := Function.update s.writer w (.mark msg.val e) }
  /-- A relaxed store carries no view, as a plain one. -/
  | mark :
      s.writer w = .mark t e →
      Step s (.mark w t)
        { s with
          mem := s.mem.plainStore (.inl w) (.seq (slotOf t)) (writing t)
          writer := Function.update s.writer w (.copy t e ∅) }
  | writeCopy :
      s.writer w = .copy t e done → i ∉ done →
      Step s (.writeCopy w)
        { s with
          mem := s.mem.plainStore (.inl w) (.byte (slotOf t) i) (e i).toUInt64
          writer := Function.update s.writer w (.copy t e (insert i done)) }
  | commit :
      s.writer w = .copy t e Finset.univ →
      Step s (.commit w t)
        { s with
          mem := s.mem.releaseStore (.inl w) (.seq (slotOf t)) (committed t)
          writer := Function.update s.writer w .idle }
  /-- Only tickets below `LOG_SLOTS` are asked for, as `main` does. -/
  | readCall :
      s.reader r = .idle → t.toNat < logSlots →
      Step s (.readCall r t) { s with reader := Function.update s.reader r (.load1 t out) }
  | firstLoad :
      s.reader r = .load1 t out → s.mem.Finds (.inr r) (.seq (slotOf t)) j msg →
      Step s (.firstLoad r)
        { s with
          mem := s.mem.acquireLoad (.inr r) (.seq (slotOf t)) j msg
          reader := Function.update s.reader r (.test1 t msg.val out) }
  | readMiss :
      s.reader r = .test1 t v out → v ≠ committed t →
      Step s (.ret r t (-1) out) { s with reader := Function.update s.reader r .idle }
  | readStart :
      s.reader r = .test1 t v out → v = committed t →
      Step s (.readStep r) { s with reader := Function.update s.reader r (.copy t out ∅) }
  | readCopy :
      s.reader r = .copy t out done → i ∉ done →
      s.mem.Finds (.inr r) (.byte (slotOf t) i) j msg →
      Step s (.readStep r)
        { s with
          mem := s.mem.plainLoad (.inr r) (.byte (slotOf t) i) j
          reader := Function.update s.reader r
            (.copy t (Function.update out i msg.val.toUInt8) (insert i done)) }
  | secondLoad :
      s.reader r = .copy t out Finset.univ → s.mem.Finds (.inr r) (.seq (slotOf t)) j msg →
      Step s (.readStep r)
        { s with
          mem := s.mem.relaxedLoad (.inr r) (.seq (slotOf t)) j
          reader := Function.update s.reader r (.test2 t msg.val out) }
  | readLapped :
      s.reader r = .test2 t v out → v ≠ committed t →
      Step s (.ret r t (-1) out) { s with reader := Function.update s.reader r .idle }
  | readOk :
      s.reader r = .test2 t v out → v = committed t →
      Step s (.ret r t 0 out) { s with reader := Function.update s.reader r .idle }

def start (W R : Type) : State W R := ⟨.init fun _ => 0, fun _ => .idle, fun _ => .idle⟩

/-- Any number of writers and readers on one log. -/
def machine (W R : Type) [DecidableEq W] [DecidableEq R] : System (State W R) (Act W R) where
  init s := s = start W R
  step := Step

end

/-- The next step of a thread copies a byte that another one may access at the same time. -/
inductive State.Racy (s : State W R) : Prop where
  | store : s.writer w = .copy t e done → i ∉ done →
      ¬ s.mem.MayStore (.inl w) (.byte (slotOf t) i) → s.Racy
  | load : s.reader r = .copy t out done → i ∉ done →
      ¬ s.mem.MayLoad (.inr r) (.byte (slotOf t) i) → s.Racy

/-! ## Views -/

/-- Who knows that a slot was committed knows its bytes. -/
def Closed (v : View Loc (W ⊕ R)) : Prop :=
  ∀ j, 2 ≤ v (.store (.seq j)) → ∀ i, 1 ≤ v (.store (.byte j i))

theorem Closed.bot : Closed (⊥ : View Loc (W ⊕ R)) := fun _ h =>
  absurd h (Nat.not_succ_le_zero 1)

theorem Closed.sup {v w : View Loc (W ⊕ R)} (hv : Closed v) (hw : Closed w) : Closed (v ⊔ w) := by
  intro j h i
  rcases le_sup_iff.mp h with h | h
  · exact (hv j h i).trans le_sup_left
  · exact (hw j h i).trans le_sup_right

section

variable [DecidableEq W] [DecidableEq R]

/-- Nothing is said about a slot before it is committed. -/
theorem closed_upTo {l : Loc} {k : Nat} (h : ∀ j, l = .seq j → k < 2) :
    Closed (View.upTo l k : View Loc (W ⊕ R)) := by
  intro j hj
  by_cases hl : l = .seq j
  · subst hl
    rw [View.upTo_self] at hj
    exact absurd hj (h j rfl).not_ge
  · rw [View.upTo_of_ne (by simpa using Ne.symm hl)] at hj
    exact absurd hj (by decide)

/-- A slot whose bytes are all known may be committed. -/
theorem Closed.publish {v : View Loc (W ⊕ R)} (hv : Closed v) {j : Fin logSlots}
    (h : ∀ i, 1 ≤ v (.store (.byte j i))) (k : Nat) : Closed (v ⊔ .upTo (.seq j) k) := by
  intro j' hj' i
  refine le_trans ?_ le_sup_left
  by_cases heq : j' = j
  · rw [heq]
    exact h i
  · rcases le_sup_iff.mp hj' with hj' | hj'
    · exact hv j' hj' i
    · rw [View.upTo_of_ne (by simpa using heq)] at hj'
      exact absurd hj' (by decide)

end

/-! ## Slots -/

/-- How far the one call that has the slot has come. -/
inductive Phase where
  | fresh
  | copying (e : Entry) (done : Finset (Fin entryBytes))
  | committed (e : Entry)

/-- The ticket of a slot. -/
def ticket (j : Fin logSlots) : UInt64 := UInt64.ofNat j.val

/-- The stores to the sequence number of a slot. -/
def Phase.seqs (t : UInt64) : Phase → List UInt64
  | .fresh => [0]
  | .copying _ _ => [0, writing t]
  | .committed _ => [0, writing t, Logger.committed t]

/-- The stores to a byte of a slot. -/
def Phase.bytes (i : Fin entryBytes) : Phase → List UInt64
  | .fresh => [0]
  | .copying e done => if i ∈ done then [0, (e i).toUInt64] else [0]
  | .committed e => [0, (e i).toUInt64]

theorem Phase.length_seqs_le (p : Phase) (t : UInt64) : (p.seqs t).length ≤ 3 := by
  cases p <;> simp [seqs]

theorem Phase.bytes_of_mem {i : Fin entryBytes} {e : Entry} {done : Finset (Fin entryBytes)}
    (h : i ∈ done) : (Phase.copying e done).bytes i = [0, (e i).toUInt64] := if_pos h

theorem Phase.bytes_of_notMem {i : Fin entryBytes} {e : Entry} {done : Finset (Fin entryBytes)}
    (h : i ∉ done) : (Phase.copying e done).bytes i = [0] := if_neg h

variable {m m' : Memory Loc (W ⊕ R) UInt64} {j : Fin logSlots} {p : Phase}

structure SlotOk (m : Memory Loc (W ⊕ R) UInt64) (j : Fin logSlots) (p : Phase) : Prop where
  seqs : (m.hist (.seq j)).map Msg.val = p.seqs (ticket j)
  bytes : ∀ i, (m.hist (.byte j i)).map Msg.val = p.bytes i
  /-- A slot is not read before it is committed. -/
  unread : (∀ e, p ≠ .committed e) → ∀ i u, m.loads (.byte j i) u = 0
  released : ∀ msg, (m.hist (.seq j))[2]? = some msg → 2 ≤ msg.view (.store (.seq j))
  known : ∀ e, p = .committed e → ∃ w, 2 ≤ m.view (.inl w) (.store (.seq j))

theorem SlotOk.congr (h : SlotOk m j p) (hseq : m'.hist (.seq j) = m.hist (.seq j))
    (hbyte : ∀ i, m'.hist (.byte j i) = m.hist (.byte j i))
    (hloads : (∀ e, p ≠ .committed e) → ∀ i, m'.loads (.byte j i) = m.loads (.byte j i))
    (hview : ∀ t, m.view t ≤ m'.view t) : SlotOk m' j p := by
  refine ⟨by rw [hseq]; exact h.seqs, fun i => by rw [hbyte i]; exact h.bytes i, ?_, ?_, ?_⟩
  · intro hp i u
    rw [hloads hp i]
    exact h.unread hp i u
  · rw [hseq]
    exact h.released
  · intro e he
    obtain ⟨w, hw⟩ := h.known e he
    exact ⟨w, hw.trans (hview _ _)⟩

theorem SlotOk.length_seq (h : SlotOk m j p) : (m.hist (.seq j)).length = (p.seqs (ticket j)).length := by
  rw [← h.seqs, List.length_map]

theorem SlotOk.length_byte (h : SlotOk m j p) (i : Fin entryBytes) :
    (m.hist (.byte j i)).length = (p.bytes i).length := by
  rw [← h.bytes i, List.length_map]

/-- What a load of the sequence number may find. -/
theorem SlotOk.getElem?_seqs (h : SlotOk m j p) {k : Nat} {msg : Msg Loc (W ⊕ R) UInt64}
    (hmsg : (m.hist (.seq j))[k]? = some msg) : (p.seqs (ticket j))[k]? = some msg.val := by
  rw [← h.seqs, List.getElem?_map, hmsg]
  rfl

theorem SlotOk.getElem?_bytes (h : SlotOk m j p) {k : Nat} {i : Fin entryBytes}
    {msg : Msg Loc (W ⊕ R) UInt64} (hmsg : (m.hist (.byte j i))[k]? = some msg) :
    (p.bytes i)[k]? = some msg.val := by
  rw [← h.bytes i, List.getElem?_map, hmsg]
  rfl

theorem toNat_ticket (j : Fin logSlots) : (ticket j).toNat = j.val :=
  UInt64.toNat_ofNat_of_lt' (j.isLt.trans (by decide))

theorem val_slotOf {t : UInt64} (ht : t.toNat < logSlots) : (slotOf t).val = t.toNat := by
  show (t &&& (4096 - 1)).toNat = t.toNat
  rw [UInt64.toNat_and]
  exact (Nat.and_two_pow_sub_one_eq_mod t.toNat 12).trans (Nat.mod_eq_of_lt ht)

theorem ticket_slotOf {t : UInt64} (ht : t.toNat < logSlots) : ticket (slotOf t) = t := by
  rw [← UInt64.toNat_inj, toNat_ticket, val_slotOf ht]

/-- The committed number of a ticket is found last, and only in a slot that was committed. -/
theorem Phase.committed_of_getElem? {p : Phase} {t : UInt64} (ht : t.toNat < logSlots) {k : Nat}
    (h : (p.seqs t)[k]? = some (Logger.committed t)) : k = 2 ∧ ∃ e, p = .committed e := by
  have ht' : t.toNat < 2 ^ 62 := ht.trans (by decide)
  have hzero : (0 : UInt64) ≠ Logger.committed t := (committed_ne_zero ht').symm
  have hmark : writing t ≠ Logger.committed t := writing_ne_committed ht' ht'
  match p, k with
  | .fresh, 0 | .copying _ _, 0 | .committed _, 0 => exact absurd (Option.some.inj h) hzero
  | .copying _ _, 1 | .committed _, 1 => exact absurd (Option.some.inj h) hmark
  | .committed e, 2 => exact ⟨rfl, e, rfl⟩
  | .fresh, _ + 1 | .copying _ _, _ + 2 | .committed _, _ + 3 => cases h

/-! ## The invariant -/

/-- What the place of a writer says about its slot. -/
def WriterOk (m : Memory Loc (W ⊕ R) UInt64) (ds : List (UInt64 × Entry))
    (phase : Fin logSlots → Phase) (w : W) : WriterPc → Prop
  | .mark t e => ds[t.toNat]? = some (t, e) ∧ phase (slotOf t) = .fresh
  | .copy t e done => ds[t.toNat]? = some (t, e) ∧ phase (slotOf t) = .copying e done ∧
      ∀ i ∈ done, 1 ≤ m.view (.inl w) (.store (.byte (slotOf t) i))
  | _ => True

/-- What a reader knows and has copied. -/
def ReaderOk (m : Memory Loc (W ⊕ R) UInt64) (phase : Fin logSlots → Phase) (r : R) :
    ReaderPc → Prop
  | .idle => True
  | .load1 t _ => t.toNat < logSlots
  | .test1 t v _ => t.toNat < logSlots ∧ (v = committed t →
      (∃ e, phase (slotOf t) = .committed e) ∧ 2 ≤ m.view (.inr r) (.store (.seq (slotOf t))))
  | .copy t out done => t.toNat < logSlots ∧ 2 ≤ m.view (.inr r) (.store (.seq (slotOf t))) ∧
      ∃ e, phase (slotOf t) = .committed e ∧ ∀ i ∈ done, out i = e i
  | .test2 t _ out => t.toNat < logSlots ∧ phase (slotOf t) = .committed out

/-- The state after the draws `ds`. -/
structure State.Inv (s : State W R) (ds : List (UInt64 × Entry)) (phase : Fin logSlots → Phase) :
    Prop where
  le : ds.length ≤ logSlots
  head : s.mem.value .head = UInt64.ofNat ds.length
  tickets : ∀ (k : Nat) x, ds[k]? = some x → x.1.toNat = k
  slots : ∀ j, SlotOk s.mem j (phase j)
  undrawn : ∀ j, ds.length ≤ j.val → phase j = .fresh
  entry : ∀ j e, phase j = .committed e → ds[j.val]? = some (ticket j, e)
  /-- A ticket that was drawn is held or committed. -/
  accounted : ∀ t e, ds[t.toNat]? = some (t, e) →
    (∃ w, (s.writer w).holds = some (t, e)) ∨ phase (slotOf t) = .committed e
  distinct : ∀ w w' t e e',
    (s.writer w).holds = some (t, e) → (s.writer w').holds = some (t, e') → w = w'
  writers : ∀ w, WriterOk s.mem ds phase w (s.writer w)
  readers : ∀ r, ReaderOk s.mem phase r (s.reader r)
  views : s.mem.AllViews Closed

variable {s s' : State W R} {ds : List (UInt64 × Entry)} {phase phase' : Fin logSlots → Phase}
  {w : W} {r : R} {t : UInt64} {e : Entry}

theorem WriterOk.mono {pc : WriterPc} (h : WriterOk m ds phase w pc)
    (hview : ∀ u, m.view u ≤ m'.view u) : WriterOk m' ds phase w pc := by
  cases pc with
  | copy t e done => exact ⟨h.1, h.2.1, fun i hi => (h.2.2 i hi).trans (hview _ _)⟩
  | _ => exact h

theorem ReaderOk.mono {pc : ReaderPc} (h : ReaderOk m phase r pc)
    (hview : ∀ u, m.view u ≤ m'.view u)
    (hphase : ∀ j e, phase j = .committed e → phase' j = .committed e) :
    ReaderOk m' phase' r pc := by
  cases pc with
  | idle => trivial
  | load1 t out => exact h
  | test1 t v out =>
      refine ⟨h.1, fun hv => ?_⟩
      obtain ⟨⟨e, he⟩, hseq⟩ := h.2 hv
      exact ⟨⟨e, hphase _ e he⟩, hseq.trans (hview _ _)⟩
  | copy t out done =>
      obtain ⟨ht, hseq, e, he, hout⟩ := h
      exact ⟨ht, hseq.trans (hview _ _), e, hphase _ e he, hout⟩
  | test2 t v out => exact ⟨h.1, hphase _ out h.2⟩

namespace State.Inv

theorem lt_of_drawn (h : s.Inv ds phase) (ht : ds[t.toNat]? = some (t, e)) : t.toNat < logSlots :=
  (List.getElem?_eq_some_iff.mp ht).1.trans_le h.le

/-- A ticket that is held was drawn, and its slot is not committed. -/
theorem of_holds (h : s.Inv ds phase) (hheld : (s.writer w).holds = some (t, e)) :
    ds[t.toNat]? = some (t, e) ∧ ∀ e', phase (slotOf t) ≠ .committed e' := by
  have hw := h.writers w
  cases hpc : s.writer w with
  | mark t' e' =>
      rw [hpc] at hw hheld
      obtain ⟨rfl, rfl⟩ := Prod.mk.inj (Option.some.inj hheld)
      exact ⟨hw.1, fun e' => by rw [hw.2]; exact nofun⟩
  | copy t' e' done =>
      rw [hpc] at hw hheld
      obtain ⟨rfl, rfl⟩ := Prod.mk.inj (Option.some.inj hheld)
      exact ⟨hw.1, fun e' => by rw [hw.2.1]; exact nofun⟩
  | _ =>
      rw [hpc] at hheld
      cases hheld

/-- Two writers hold tickets of different slots. -/
theorem slotOf_ne (h : s.Inv ds phase) {w' : W} {t' : UInt64} {e' : Entry} (hne : w' ≠ w)
    (hheld : (s.writer w).holds = some (t, e)) (hheld' : (s.writer w').holds = some (t', e')) :
    slotOf t' ≠ slotOf t := by
  intro heq
  have ht := h.lt_of_drawn (h.of_holds hheld).1
  have ht' := h.lt_of_drawn (h.of_holds hheld').1
  obtain rfl : t' = t := by rw [← ticket_slotOf ht', heq, ticket_slotOf ht]
  exact hne (h.distinct w' w t' e' e hheld' hheld)

/-- A reader that knows the slot was committed knows its bytes. -/
theorem byte_known (h : s.Inv ds phase) {out : Entry} {done : Finset (Fin entryBytes)}
    (hpc : s.reader r = .copy t out done) (i : Fin entryBytes) :
    1 ≤ s.mem.view (.inr r) (.store (.byte (slotOf t) i)) := by
  have hr := h.readers r
  rw [hpc] at hr
  exact h.views.threads (.inr r) (slotOf t) hr.2.1 i

theorem setReader [DecidableEq R] (h : s.Inv ds phase) {pc : ReaderPc} (hpc : ReaderOk s.mem phase r pc) :
    State.Inv { s with reader := Function.update s.reader r pc } ds phase :=
  { h with
    readers := (Function.forall_update_iff s.reader fun r pc => ReaderOk s.mem phase r pc).mpr
      ⟨hpc, fun r' _ => h.readers r'⟩ }

/-- A thread joins a view. -/
theorem learn [DecidableEq W] [DecidableEq R] (h : s.Inv ds phase) (u : W ⊕ R) {v : View Loc (W ⊕ R)} (hv : Closed v) :
    State.Inv { s with mem := s.mem.learn u v } ds phase := by
  have hview : ∀ u', s.mem.view u' ≤ (s.mem.learn u v).view u' := fun u' =>
    Memory.view_le_learn s.mem u u' v
  exact
    { h with
      head := h.head
      slots := fun j => (h.slots j).congr rfl (fun _ => rfl) (fun _ _ => rfl) hview
      writers := fun w => (h.writers w).mono hview
      readers := fun r => (h.readers r).mono hview fun _ _ => id
      views := h.views.learn ((h.views.threads u).sup hv) }

/-- A plain load of a byte of a slot that is committed. -/
theorem plainLoad [DecidableEq W] [DecidableEq R] (h : s.Inv ds phase) (u : W ⊕ R) {j : Fin logSlots} (hj : phase j = .committed e)
    (i : Fin entryBytes) (k : Nat) :
    State.Inv { s with mem := s.mem.plainLoad u (.byte j i) k } ds phase := by
  have hview : ∀ u', s.mem.view u' ≤ (s.mem.plainLoad u (.byte j i) k).view u' := fun u' =>
    Memory.view_le_plainLoad s.mem u u' _ k
  have hclosed : Closed (View.upTo (.byte j i) k ⊔
      Function.update ⊥ (.load (.byte j i) u) (s.mem.loads (.byte j i) u + 1) :
        View Loc (W ⊕ R)) := by
    refine (closed_upTo (by simp)).sup fun j' hj' => ?_
    rw [Function.update_of_ne (by simp)] at hj'
    exact absurd hj' (Nat.not_succ_le_zero 1)
  refine
    { h with
      head := h.head
      slots := fun j' => (h.slots j').congr rfl (fun _ => rfl) (fun hp i' => ?_) hview
      writers := fun w => (h.writers w).mono hview
      readers := fun r => (h.readers r).mono hview fun _ _ => id
      views := ?_ }
  · have hne : j' ≠ j := by
      rintro rfl
      exact hp e hj
    exact funext fun u' => Memory.plainLoad_loads_of_ne s.mem k (.inr (by simp [hne]))
  · have hviews := h.views.learn ((h.views.threads u).sup hclosed)
    exact ⟨hviews.threads, hviews.stores⟩

/-- The writer of a slot stores into it. -/
theorem setSlot [DecidableEq W] (h : s.Inv ds phase) (hheld : (s.writer w).holds = some (t, e)) {p : Phase}
    {pc : WriterPc} (hhead : m'.hist .head = s.mem.hist .head)
    (hseq : ∀ j ≠ slotOf t, m'.hist (.seq j) = s.mem.hist (.seq j))
    (hbyte : ∀ j ≠ slotOf t, ∀ i, m'.hist (.byte j i) = s.mem.hist (.byte j i))
    (hloads : m'.loads = s.mem.loads) (hview : ∀ u, s.mem.view u ≤ m'.view u)
    (hslot : SlotOk m' (slotOf t) p) (hviews : m'.AllViews Closed)
    (hpc : WriterOk m' ds (Function.update phase (slotOf t) p) w pc)
    (hp : ∀ e', p = .committed e' → e' = e)
    (hholds : pc.holds = some (t, e) ∨ pc.holds = none ∧ p = .committed e) :
    State.Inv { s with mem := m', writer := Function.update s.writer w pc } ds
      (Function.update phase (slotOf t) p) := by
  obtain ⟨hdrawn, hopen⟩ := h.of_holds hheld
  have ht := h.lt_of_drawn hdrawn
  have hcommitted : ∀ j e', phase j = .committed e' →
      Function.update phase (slotOf t) p j = .committed e' := by
    intro j e' hj
    rw [Function.update_of_ne]
    · exact hj
    · rintro rfl
      exact hopen e' hj
  constructor
  case le => exact h.le
  case head => exact (Memory.value_congr hhead).trans h.head
  case tickets => exact h.tickets
  case slots =>
    intro j
    by_cases hj : j = slotOf t
    · rw [hj, Function.update_self]
      exact hslot
    · rw [Function.update_of_ne hj]
      exact (h.slots j).congr (hseq j hj) (hbyte j hj) (fun _ i => by rw [hloads]) hview
  case undrawn =>
    intro j hj
    rw [Function.update_of_ne]
    · exact h.undrawn j hj
    · rintro rfl
      rw [val_slotOf ht] at hj
      exact absurd (List.getElem?_eq_some_iff.mp hdrawn).1 hj.not_gt
  case entry =>
    intro j e' hj
    by_cases heq : j = slotOf t
    · subst heq
      rw [Function.update_self] at hj
      rw [hp e' hj, val_slotOf ht, ticket_slotOf ht]
      exact hdrawn
    · rw [Function.update_of_ne heq] at hj
      exact h.entry j e' hj
  case accounted =>
    intro t' e' ht'
    rcases h.accounted t' e' ht' with ⟨w', hw'⟩ | hc
    · by_cases hne : w' = w
      · subst hne
        obtain ⟨rfl, rfl⟩ := Prod.mk.inj (Option.some.inj (hheld.symm.trans hw'))
        rcases hholds with hsame | ⟨-, rfl⟩
        · exact .inl ⟨w', by rw [holds_update, if_pos rfl]; exact hsame⟩
        · exact .inr (Function.update_self ..)
      · exact .inl ⟨w', by rw [holds_update, if_neg hne]; exact hw'⟩
    · exact .inr (hcommitted _ e' hc)
  case distinct =>
    have hold : ∀ w' x, (Function.update s.writer w pc w').holds = some x →
        (s.writer w').holds = some x := by
      intro w' x hx
      rw [holds_update] at hx
      split at hx
      · next heq =>
          rcases hholds with hsame | ⟨hnone, -⟩
          · rw [heq, hheld, ← hx, hsame]
          · rw [hnone] at hx
            cases hx
      · exact hx
    intro w₁ w₂ t' e₁ e₂ h₁ h₂
    exact h.distinct w₁ w₂ t' e₁ e₂ (hold w₁ _ h₁) (hold w₂ _ h₂)
  case writers =>
    refine (Function.forall_update_iff s.writer fun w' pc =>
      WriterOk m' ds (Function.update phase (slotOf t) p) w' pc).mpr ⟨hpc, fun w' hne => ?_⟩
    have hw' := (h.writers w').mono hview
    cases hpc' : s.writer w' with
    | mark t' e' =>
        rw [hpc'] at hw'
        have hheld' : (s.writer w').holds = some (t', e') := by rw [hpc']; rfl
        have hother := h.slotOf_ne hne hheld hheld'
        exact ⟨hw'.1, by rw [Function.update_of_ne hother]; exact hw'.2⟩
    | copy t' e' done =>
        rw [hpc'] at hw'
        have hother := h.slotOf_ne hne hheld (holds_copy hpc')
        exact ⟨hw'.1, by rw [Function.update_of_ne hother]; exact hw'.2.1, hw'.2.2⟩
    | _ => trivial
  case readers => exact fun r => (h.readers r).mono hview hcommitted
  case views => exact hviews

theorem writeCall [DecidableEq W] (h : s.Inv ds phase) (hpc : s.writer w = .idle) (e : Entry) :
    State.Inv { s with writer := Function.update s.writer w (.draw e) } ds phase := by
  have hsame := holds_update_same s.writer (p := .draw e) (show (s.writer w).holds = _ by rw [hpc]; rfl)
  refine
    { h with
      accounted := fun t' e' ht' => (h.accounted t' e' ht').imp_left fun ⟨w', hw'⟩ => ⟨w', ?_⟩
      distinct := ?_
      writers := (Function.forall_update_iff s.writer fun w pc => WriterOk s.mem ds phase w pc).mpr
        ⟨trivial, fun w' _ => h.writers w'⟩ }
  · simp only [hsame]
    exact h.distinct
  · exact (hsame w').trans hw'

section

variable [DecidableEq W] [DecidableEq R]

/-- A ticket is drawn. -/
theorem draw (h : s.Inv ds phase) (hpc : s.writer w = .draw e) (hlen : ds.length < logSlots)
    {msg : Msg Loc (W ⊕ R) UInt64} (hlast : s.mem.Last .head msg) :
    State.Inv
      { s with
        mem := s.mem.relaxedExchange (.inl w) .head msg (msg.val + 1)
        writer := Function.update s.writer w (.mark msg.val e) }
      (ds ++ [(msg.val, e)]) phase := by
  have hval : msg.val = UInt64.ofNat ds.length := hlast.value_eq.symm.trans h.head
  have hnat : msg.val.toNat = ds.length := by
    rw [hval]
    exact UInt64.toNat_ofNat_of_lt' (hlen.trans (by decide))
  have hslot : (slotOf msg.val).val = ds.length := by rw [val_slotOf (by omega), hnat]
  have hfresh : phase (slotOf msg.val) = .fresh := h.undrawn _ hslot.ge
  have hhist : ∀ l, l ≠ .head →
      (s.mem.relaxedExchange (.inl w) .head msg (msg.val + 1)).hist l = s.mem.hist l := fun l hl =>
    Memory.push_hist_of_ne s.mem _ _ hl
  have hview : ∀ u, s.mem.view u ≤
      (s.mem.relaxedExchange (.inl w) .head msg (msg.val + 1)).view u := fun u =>
    Memory.view_le_learn _ _ u _
  have hkept : ∀ {k x}, ds[k]? = some x → (ds ++ [(msg.val, e)])[k]? = some x :=
    getElem?_concat_of_eq
  -- The ticket is a new one.
  have hnew : ∀ w' e', (s.writer w').holds ≠ some (msg.val, e') := by
    intro w' e' hheld
    have hlt := (List.getElem?_eq_some_iff.mp (h.of_holds hheld).1).1
    omega
  constructor
  case le =>
    rw [List.length_append]
    exact hlen
  case head =>
    rw [Memory.value_relaxedExchange, hval, List.length_append, UInt64.ofNat_add]
    rfl
  case tickets =>
    intro k x hx
    rcases Nat.lt_or_ge k ds.length with hlt | hge
    · exact h.tickets k x (by rw [← hx, List.getElem?_append_left hlt])
    · have hk : k < (ds ++ [(msg.val, e)]).length := (List.getElem?_eq_some_iff.mp hx).1
      rw [List.length_append, List.length_singleton] at hk
      obtain rfl : k = ds.length := by omega
      rw [List.getElem?_concat_length] at hx
      rw [← Option.some.inj hx]
      exact hnat
  case slots =>
    exact fun j => (h.slots j).congr (hhist _ nofun) (fun i => hhist _ nofun) (fun _ _ => rfl) hview
  case undrawn =>
    intro j hj
    rw [List.length_append] at hj
    exact h.undrawn j (Nat.le_of_succ_le hj)
  case entry => exact fun j e' hj => hkept (h.entry j e' hj)
  case accounted =>
    intro t' e' ht'
    rcases Nat.lt_or_ge t'.toNat ds.length with hlt | hge
    · rw [List.getElem?_append_left hlt] at ht'
      rcases h.accounted t' e' ht' with ⟨w', hw'⟩ | hc
      · have hne : w' ≠ w := by
          rintro rfl
          rw [hpc] at hw'
          cases hw'
        exact .inl ⟨w', by rw [holds_update, if_neg hne]; exact hw'⟩
      · exact .inr hc
    · have hx := List.mem_of_getElem? (List.getElem?_append_right hge ▸ ht')
      rw [List.mem_singleton] at hx
      exact .inl ⟨w, by rw [holds_update, if_pos rfl, hx]; rfl⟩
  case distinct =>
    intro w₁ w₂ t' e₁ e₂ h₁ h₂
    rw [holds_update] at h₁ h₂
    split at h₁ <;> split at h₂
    · next heq₁ heq₂ => exact heq₁.trans heq₂.symm
    · obtain ⟨rfl, -⟩ := Prod.mk.inj (Option.some.inj h₁)
      exact absurd h₂ (hnew w₂ e₂)
    · obtain ⟨rfl, -⟩ := Prod.mk.inj (Option.some.inj h₂)
      exact absurd h₁ (hnew w₁ e₁)
    · exact h.distinct w₁ w₂ t' e₁ e₂ h₁ h₂
  case writers =>
    refine (Function.forall_update_iff s.writer fun w' pc =>
      WriterOk (s.mem.relaxedExchange (.inl w) .head msg (msg.val + 1)) (ds ++ [(msg.val, e)]) phase
        w' pc).mpr ⟨⟨?_, hfresh⟩, fun w' _ => ?_⟩
    · rw [hnat, List.getElem?_concat_length]
    · have hw' := (h.writers w').mono hview
      cases hpc' : s.writer w' with
      | mark t' e' =>
          rw [hpc'] at hw'
          exact ⟨hkept hw'.1, hw'.2⟩
      | copy t' e' done =>
          rw [hpc'] at hw'
          exact ⟨hkept hw'.1, hw'.2⟩
      | _ => trivial
  case readers => exact fun r => (h.readers r).mono hview fun _ _ => id
  case views =>
    have hmsg : Closed msg.view := h.views.stores .head msg (List.mem_of_getLast? hlast)
    exact (h.views.push _ _ hmsg).learn ((h.views.threads _).sup (closed_upTo nofun))

/-- The slot of a ticket is marked. -/
theorem mark (h : s.Inv ds phase) (hpc : s.writer w = .mark t e) :
    State.Inv
      { s with
        mem := s.mem.plainStore (.inl w) (.seq (slotOf t)) (writing t)
        writer := Function.update s.writer w (.copy t e ∅) }
      ds (Function.update phase (slotOf t) (.copying e ∅)) := by
  have hheld : (s.writer w).holds = some (t, e) := by rw [hpc]; rfl
  have hw := h.writers w
  rw [hpc] at hw
  obtain ⟨hdrawn, hfresh⟩ := hw
  have hslot := h.slots (slotOf t)
  rw [hfresh] at hslot
  have hlen : (s.mem.hist (.seq (slotOf t))).length = 1 := hslot.length_seq
  have hview : ∀ u, s.mem.view u ≤ (s.mem.plainStore (.inl w) (.seq (slotOf t)) (writing t)).view u :=
    fun u => Memory.view_le_plainStore s.mem _ u _ _
  have hbyte : ∀ i, (s.mem.plainStore (.inl w) (.seq (slotOf t)) (writing t)).hist
      (.byte (slotOf t) i) = s.mem.hist (.byte (slotOf t) i) := fun i =>
    Memory.plainStore_hist_of_ne s.mem _ _ nofun
  refine h.setSlot hheld (Memory.plainStore_hist_of_ne s.mem _ _ nofun)
    (fun j hj => Memory.plainStore_hist_of_ne s.mem _ _ (by simpa using hj))
    (fun j _ i => Memory.plainStore_hist_of_ne s.mem _ _ nofun) rfl hview ?_ ?_
    ⟨hdrawn, Function.update_self .., fun i hi => absurd hi (Finset.notMem_empty i)⟩ nofun (.inl rfl)
  · constructor
    case seqs =>
      rw [Memory.plainStore_hist_self, List.map_append, hslot.seqs,
        ticket_slotOf (h.lt_of_drawn hdrawn)]
      rfl
    case bytes =>
      intro i
      rw [hbyte i, hslot.bytes i, Phase.bytes_of_notMem (Finset.notMem_empty i)]
      rfl
    case unread => exact fun _ i u => hslot.unread nofun i u
    case released =>
      intro msg hmsg
      have hlt := (List.getElem?_eq_some_iff.mp hmsg).1
      rw [Memory.plainStore_hist_self, List.length_append, hlen] at hlt
      exact absurd hlt (lt_irrefl 2)
    case known => exact nofun
  · refine (h.views.push _ _ Closed.bot).learn ((h.views.threads _).sup ?_)
    rw [hlen]
    exact closed_upTo fun _ _ => by decide

/-- A byte is copied. -/
theorem writeCopy (h : s.Inv ds phase) {done : Finset (Fin entryBytes)}
    (hpc : s.writer w = .copy t e done) {i : Fin entryBytes} (hi : i ∉ done) :
    State.Inv
      { s with
        mem := s.mem.plainStore (.inl w) (.byte (slotOf t) i) (e i).toUInt64
        writer := Function.update s.writer w (.copy t e (insert i done)) }
      ds (Function.update phase (slotOf t) (.copying e (insert i done))) := by
  have hheld := holds_copy hpc
  have hw := h.writers w
  rw [hpc] at hw
  obtain ⟨hdrawn, hcopying, hknown⟩ := hw
  have hslot := h.slots (slotOf t)
  rw [hcopying] at hslot
  have hold : (s.mem.hist (.byte (slotOf t) i)).map Msg.val = [0] :=
    (hslot.bytes i).trans (Phase.bytes_of_notMem hi)
  have hlen : (s.mem.hist (.byte (slotOf t) i)).length = 1 := by
    simpa using congrArg List.length hold
  have hview : ∀ u, s.mem.view u ≤
      (s.mem.plainStore (.inl w) (.byte (slotOf t) i) (e i).toUInt64).view u := fun u =>
    Memory.view_le_plainStore s.mem _ u _ _
  refine h.setSlot hheld (Memory.plainStore_hist_of_ne s.mem _ _ nofun)
    (fun j _ => Memory.plainStore_hist_of_ne s.mem _ _ nofun)
    (fun j hj i' => Memory.plainStore_hist_of_ne s.mem _ _ (by simp [hj])) rfl hview ?_ ?_
    ⟨hdrawn, Function.update_self .., fun i' hi' => ?_⟩ nofun (.inl rfl)
  · have hseq : (s.mem.plainStore (.inl w) (.byte (slotOf t) i) (e i).toUInt64).hist
        (.seq (slotOf t)) = s.mem.hist (.seq (slotOf t)) :=
      Memory.plainStore_hist_of_ne s.mem _ _ nofun
    constructor
    case seqs =>
      rw [hseq]
      exact hslot.seqs
    case bytes =>
      intro i'
      by_cases heq : i' = i
      · subst heq
        rw [Memory.plainStore_hist_self, List.map_append, hold,
          Phase.bytes_of_mem (Finset.mem_insert_self i' done)]
        rfl
      · rw [Memory.plainStore_hist_of_ne s.mem _ _ (by simpa using heq), hslot.bytes i']
        simp only [Phase.bytes, Finset.mem_insert, heq, false_or]
    case unread => exact fun _ i u => hslot.unread nofun i u
    case released =>
      rw [hseq]
      exact hslot.released
    case known => exact nofun
  · exact (h.views.push _ _ Closed.bot).learn ((h.views.threads _).sup (closed_upTo (by simp)))
  · rcases Finset.mem_insert.mp hi' with rfl | hi'
    · rw [Memory.plainStore, Memory.learn_view_self, hlen]
      exact (View.upTo_le_iff (v := s.mem.view _ ⊔ .upTo _ 1)).mp le_sup_right
    · exact (hknown i' hi').trans (hview _ _)

/-- The slot is committed. -/
theorem commit (h : s.Inv ds phase) (hpc : s.writer w = .copy t e Finset.univ) :
    State.Inv
      { s with
        mem := s.mem.releaseStore (.inl w) (.seq (slotOf t)) (committed t)
        writer := Function.update s.writer w .idle }
      ds (Function.update phase (slotOf t) (.committed e)) := by
  have hheld := holds_copy hpc
  have hw := h.writers w
  rw [hpc] at hw
  obtain ⟨hdrawn, hcopying, hknown⟩ := hw
  have hslot := h.slots (slotOf t)
  rw [hcopying] at hslot
  have hlen : (s.mem.hist (.seq (slotOf t))).length = 2 := hslot.length_seq
  have hclosed : Closed (s.mem.view (.inl w) ⊔ .upTo (.seq (slotOf t)) 2) :=
    (h.views.threads _).publish (fun i => hknown i (Finset.mem_univ i)) 2
  have hbyte : ∀ i, (s.mem.releaseStore (.inl w) (.seq (slotOf t)) (committed t)).hist
      (.byte (slotOf t) i) = s.mem.hist (.byte (slotOf t) i) := fun i =>
    Memory.releaseStore_hist_of_ne s.mem _ _ nofun
  refine h.setSlot hheld (Memory.releaseStore_hist_of_ne s.mem _ _ nofun)
    (fun j hj => Memory.releaseStore_hist_of_ne s.mem _ _ (by simpa using hj))
    (fun j _ i => Memory.releaseStore_hist_of_ne s.mem _ _ nofun) rfl
    (fun u => Memory.view_le_releaseStore s.mem _ u _ _) ?_ ?_ trivial
    (fun e' he' => (Phase.committed.inj he').symm) (.inr ⟨rfl, rfl⟩)
  · constructor
    case seqs =>
      rw [Memory.releaseStore_hist_self, List.map_append, hslot.seqs,
        ticket_slotOf (h.lt_of_drawn hdrawn)]
      rfl
    case bytes =>
      intro i
      rw [hbyte i, hslot.bytes i, Phase.bytes_of_mem (Finset.mem_univ i)]
      rfl
    case unread => exact fun hp => absurd rfl (hp e)
    case released =>
      intro msg hmsg
      rw [Memory.releaseStore_hist_self, List.getElem?_append_right hlen.le, hlen] at hmsg
      obtain rfl := Option.some.inj hmsg
      exact View.upTo_le_iff.mp le_sup_right
    case known =>
      intro _ _
      refine ⟨w, ?_⟩
      rw [Memory.releaseStore, Memory.learn_view_self, hlen]
      exact View.upTo_le_iff.mp le_sup_right
  · rw [Memory.releaseStore, hlen]
    exact (h.views.push _ _ hclosed).learn hclosed

/-! ## Steps of a reader -/

/-- A reader finds the number of its ticket only when the slot was committed. -/
theorem firstLoad (h : s.Inv ds phase) {out : Entry} (hpc : s.reader r = .load1 t out) {k : Nat}
    {msg : Msg Loc (W ⊕ R) UInt64} (hf : s.mem.Finds (.inr r) (.seq (slotOf t)) k msg) :
    State.Inv
      { s with
        mem := s.mem.acquireLoad (.inr r) (.seq (slotOf t)) k msg
        reader := Function.update s.reader r (.test1 t msg.val out) } ds phase := by
  have ht := h.readers r
  rw [hpc] at ht
  have hslot := h.slots (slotOf t)
  have hmsg : Closed msg.view := h.views.stores _ msg (List.mem_of_getElem? hf.2)
  have hfound := hslot.getElem?_seqs hf.2
  rw [ticket_slotOf ht] at hfound
  have hclosed : Closed (View.upTo (.seq (slotOf t)) k ⊔ msg.view) := by
    by_cases hk : k < 2
    · refine (closed_upTo fun j hj => hk).sup hmsg
    · -- The store that commits carries what it commits.
      have hlt := (List.getElem?_eq_some_iff.mp hf.2).1
      have hle : (s.mem.hist (.seq (slotOf t))).length ≤ 3 := by
        rw [hslot.length_seq]
        exact Phase.length_seqs_le _ _
      obtain rfl : k = 2 := by omega
      rw [sup_eq_right.mpr (View.upTo_le_iff.mpr (hslot.released msg hf.2))]
      exact hmsg
  refine (h.learn (.inr r) hclosed).setReader ⟨ht, fun hv => ?_⟩
  rw [hv] at hfound
  obtain ⟨rfl, hphase⟩ := Phase.committed_of_getElem? ht hfound
  refine ⟨hphase, ?_⟩
  rw [Memory.learn_view_self]
  exact View.upTo_le_iff.mp (le_sup_left.trans le_sup_right)

theorem readCopy (h : s.Inv ds phase) {out : Entry} {done : Finset (Fin entryBytes)}
    (hpc : s.reader r = .copy t out done) {i : Fin entryBytes} {k : Nat}
    {msg : Msg Loc (W ⊕ R) UInt64} (hf : s.mem.Finds (.inr r) (.byte (slotOf t) i) k msg) :
    State.Inv
      { s with
        mem := s.mem.plainLoad (.inr r) (.byte (slotOf t) i) k
        reader := Function.update s.reader r
          (.copy t (Function.update out i msg.val.toUInt8) (insert i done)) } ds phase := by
  have hr := h.readers r
  rw [hpc] at hr
  obtain ⟨ht, hseq, e, he, hout⟩ := hr
  have hslot := h.slots (slotOf t)
  rw [he] at hslot
  have hlt := (List.getElem?_eq_some_iff.mp hf.2).1
  rw [hslot.length_byte i] at hlt
  -- There is one store behind the first one, and the reader knows of it.
  obtain rfl : k = 1 := by
    have hge := (h.byte_known hpc i).trans hf.1
    have hlt : k < 2 := hlt
    omega
  have hval : (e i).toUInt64 = msg.val := Option.some.inj (hslot.getElem?_bytes hf.2)
  refine (h.plainLoad (.inr r) he i 1).setReader
    ⟨ht, hseq.trans (Memory.view_le_plainLoad s.mem _ _ _ 1 _), e, he, fun i' hi' => ?_⟩
  by_cases heq : i' = i
  · rw [heq, Function.update_self, ← hval, UInt8.toUInt8_toUInt64]
  · rw [Function.update_of_ne heq]
    exact hout i' ((Finset.mem_insert.mp hi').resolve_left heq)

theorem secondLoad (h : s.Inv ds phase) {out : Entry} (hpc : s.reader r = .copy t out Finset.univ)
    {k : Nat} {msg : Msg Loc (W ⊕ R) UInt64}
    (hf : s.mem.Finds (.inr r) (.seq (slotOf t)) k msg) :
    State.Inv
      { s with
        mem := s.mem.relaxedLoad (.inr r) (.seq (slotOf t)) k
        reader := Function.update s.reader r (.test2 t msg.val out) } ds phase := by
  have hr := h.readers r
  rw [hpc] at hr
  obtain ⟨ht, hseq, e, he, hout⟩ := hr
  obtain rfl : out = e := funext fun i => hout i (Finset.mem_univ i)
  have hlt := (List.getElem?_eq_some_iff.mp hf.2).1
  have hslot := h.slots (slotOf t)
  rw [hslot.length_seq, he] at hlt
  have hlearn : s.mem.relaxedLoad (.inr r) (.seq (slotOf t)) k = s.mem :=
    Memory.learn_of_le (View.upTo_le_iff.mpr ((Nat.le_of_lt_succ hlt).trans hseq))
  rw [hlearn]
  exact h.setReader ⟨ht, he⟩

/-! ## Executions -/

/-- A step that draws no ticket. -/
theorem silent (h : s.Inv ds phase) {a : Act W R} (hstep : Step s a s') (ha : a.drawn = none) :
    ∃ phase', s'.Inv ds phase' := by
  cases hstep with
  | draw _ _ => cases ha
  | writeCall hpc => exact ⟨phase, h.writeCall hpc _⟩
  | mark hpc => exact ⟨_, h.mark hpc⟩
  | writeCopy hpc hi => exact ⟨_, h.writeCopy hpc hi⟩
  | commit hpc => exact ⟨_, h.commit hpc⟩
  | readCall _ ht => exact ⟨phase, h.setReader ht⟩
  | firstLoad hpc hf => exact ⟨phase, h.firstLoad hpc hf⟩
  | readMiss _ _ | readLapped _ _ | readOk _ _ => exact ⟨phase, h.setReader trivial⟩
  | @readStart v t _ r out hpc hv =>
      have hr := h.readers r
      rw [hpc] at hr
      obtain ⟨⟨e, he⟩, hseq⟩ := hr.2 hv
      exact ⟨phase, h.setReader ⟨hr.1, hseq, e, he, fun i hi => absurd hi (Finset.notMem_empty i)⟩⟩
  | readCopy hpc _ hf => exact ⟨phase, h.readCopy hpc hf⟩
  | secondLoad hpc hf => exact ⟨phase, h.secondLoad hpc hf⟩

theorem step (h : s.Inv ds phase) {a : Act W R} (hstep : Step s a s')
    (hlen : (ds ++ a.drawn.toList).length ≤ logSlots) :
    ∃ phase', s'.Inv (ds ++ a.drawn.toList) phase' := by
  cases ha : a.drawn with
  | none =>
      rw [Option.toList_none, List.append_nil]
      exact h.silent hstep ha
  | some d =>
      rw [ha, List.length_append] at hlen
      cases hstep with
      | draw hpc hlast =>
          obtain rfl := Option.some.inj ha
          exact ⟨phase, h.draw hpc hlen hlast⟩
      | _ => cases ha

/-- A read that returns 0 has the entry that was drawn with its ticket. -/
theorem ret_mem (h : s.Inv ds phase) {out : Entry} (hstep : Step s (.ret r t 0 out) s') :
    (t, out) ∈ ds := by
  generalize hres : (0 : Int) = res at hstep
  cases hstep with
  | readMiss _ _ | readLapped _ _ => cases hres
  | readOk hpc _ =>
      have hr := h.readers r
      rw [hpc] at hr
      have hentry := h.entry _ _ hr.2
      rw [ticket_slotOf hr.1] at hentry
      exact List.mem_of_getElem? hentry

theorem exec {as : List (Act W R)} (h : s.Inv ds phase) (hexec : (machine W R).Exec s as s')
    (hlen : (ds ++ as.filterMap Act.drawn).length ≤ logSlots) :
    (∃ phase', s'.Inv (ds ++ as.filterMap Act.drawn) phase') ∧
      ∀ r t out, .ret r t 0 out ∈ as → (t, out) ∈ ds ++ as.filterMap Act.drawn := by
  induction hexec generalizing ds phase with
  | nil =>
      rw [List.filterMap_nil, List.append_nil]
      exact ⟨⟨phase, h⟩, fun _ _ _ hin => absurd hin List.not_mem_nil⟩
  | @cons _ a _ as _ hstep _ ih =>
      have hcons : (a :: as).filterMap Act.drawn = a.drawn.toList ++ as.filterMap Act.drawn := by
        rw [List.filterMap_cons]
        cases a.drawn <;> rfl
      rw [hcons, ← List.append_assoc] at hlen ⊢
      have hfirst : (ds ++ a.drawn.toList).length ≤ logSlots := by
        rw [List.length_append] at hlen
        omega
      obtain ⟨phase', hnext⟩ := h.step hstep hfirst
      obtain ⟨hlast, hret⟩ := ih hnext hlen
      refine ⟨hlast, fun r t out hin => ?_⟩
      rcases List.mem_cons.mp hin with rfl | hin
      · exact List.mem_append_left _ (List.mem_append_left _ (h.ret_mem hstep))
      · exact hret r t out hin

end

theorem not_racy (h : s.Inv ds phase) : ¬ s.Racy := by
  rintro (⟨hpc, hi, hrace⟩ | ⟨hpc, -, hrace⟩)
  · rename_i w t e done i
    have hw := h.writers w
    rw [hpc] at hw
    have hslot := h.slots (slotOf t)
    rw [hw.2.1] at hslot
    refine hrace ⟨?_, fun u => ?_⟩
    · rw [Memory.Latest, hslot.length_byte i, Phase.bytes_of_notMem hi]
      exact Nat.le_add_left 1 _
    · have hcopying : ∀ e', Phase.copying e done ≠ .committed e' := by
        intro e' he
        cases he
      rw [hslot.unread hcopying i u]
      exact Nat.zero_le _
  · rename_i r t out done i
    have hr := h.readers r
    rw [hpc] at hr
    obtain ⟨-, -, e, he, -⟩ := hr
    have hslot := h.slots (slotOf t)
    rw [he] at hslot
    refine hrace ?_
    rw [Memory.MayLoad, Memory.Latest, hslot.length_byte i]
    exact Nat.succ_le_succ (h.byte_known hpc i)

/-- What is found by one who knows what all writers know, once they have returned. -/
theorem found (h : s.Inv ds phase) (hidle : ∀ w, s.writer w = .idle) {v : View Loc (W ⊕ R)}
    (hv : ∀ w, s.mem.view (.inl w) ≤ v) (hmem : (t, e) ∈ ds) :
    (∀ k msg, v (.store (.seq (slotOf t))) ≤ k → (s.mem.hist (.seq (slotOf t)))[k]? = some msg →
      msg.val = committed t) ∧
    ∀ i k msg, v (.store (.byte (slotOf t) i)) ≤ k →
      (s.mem.hist (.byte (slotOf t) i))[k]? = some msg → msg.val = (e i).toUInt64 := by
  obtain ⟨k, hk⟩ := List.mem_iff_getElem?.mp hmem
  obtain rfl := h.tickets k _ hk
  have he : phase (slotOf t) = .committed e := by
    refine (h.accounted t e hk).resolve_left ?_
    rintro ⟨w, hw⟩
    rw [hidle w] at hw
    cases hw
  have hslot := h.slots (slotOf t)
  rw [he] at hslot
  obtain ⟨w, hw⟩ := hslot.known e rfl
  refine ⟨fun k msg hle hmsg => ?_, fun i k msg hle hmsg => ?_⟩
  · have hfound := hslot.getElem?_seqs hmsg
    have hlt : k < 3 := (List.getElem?_eq_some_iff.mp hfound).1
    obtain rfl : k = 2 := by
      have hge := (hw.trans (hv w _)).trans hle
      omega
    rw [ticket_slotOf (h.lt_of_drawn hk)] at hfound
    exact (Option.some.inj hfound).symm
  · have hfound := hslot.getElem?_bytes hmsg
    have hlt : k < 2 := (List.getElem?_eq_some_iff.mp hfound).1
    obtain rfl : k = 1 := by
      have hge := ((h.views.threads (.inl w) _ hw i).trans (hv w _)).trans hle
      omega
    exact (Option.some.inj hfound).symm

end State.Inv

theorem inv_start : (start W R).Inv [] fun _ => .fresh where
  le := Nat.zero_le _
  head := rfl
  tickets _ _ hx := nomatch hx
  slots _ :=
    { seqs := rfl
      bytes := fun _ => rfl
      unread := fun _ _ _ => rfl
      released := fun _ hmsg => nomatch hmsg
      known := fun _ he => nomatch he }
  undrawn _ _ := rfl
  entry _ _ he := nomatch he
  accounted _ _ ht := nomatch ht
  distinct _ _ _ _ _ hw := nomatch hw
  writers _ := trivial
  readers _ := trivial
  views := .init Closed.bot _

variable [DecidableEq W] [DecidableEq R]

/-! ## Whole calls -/

theorem Step.bounded {a : Act W R} (hstep : Step s a s') (h : s.mem.Bounded) : s'.mem.Bounded := by
  cases hstep with
  | draw _ hlast => exact h.relaxedExchange _ hlast _
  | mark | writeCopy => exact h.plainStore _ _ _
  | commit => exact h.releaseStore _ _ _
  | firstLoad _ hf => exact h.acquireLoad hf
  | readCopy _ _ hf => exact h.plainLoad hf
  | secondLoad _ hf => exact h.relaxedLoad hf
  | _ => exact h

theorem bounded_exec {as : List (Act W R)} (hexec : (machine W R).Exec s as s')
    (h : s.mem.Bounded) : s'.mem.Bounded := by
  induction hexec with
  | nil => exact h
  | cons hstep _ ih => exact ih (Step.bounded hstep h)

/-- The writer's `memcpy`, up to the bytes in `done`. -/
theorem exec_writeCopy (hpc : s.writer w = .copy t e ∅) (done : Finset (Fin entryBytes)) :
    ∃ s', (machine W R).Exec s (List.replicate done.card (.writeCopy w)) s' ∧
      s'.writer = Function.update s.writer w (.copy t e done) ∧ s'.reader = s.reader := by
  induction done using Finset.induction_on with
  | empty => exact ⟨s, .nil, by rw [← hpc, Function.update_eq_self], rfl⟩
  | insert i done hi ih =>
      obtain ⟨s₁, hexec, hwriter, hreader⟩ := ih
      rw [Finset.card_insert_of_notMem hi, List.replicate_succ']
      have hpc₁ : s₁.writer w = .copy t e done := by rw [hwriter, Function.update_self]
      refine ⟨_, hexec.append (.cons (.writeCopy (i := i) hpc₁ hi) .nil), ?_, hreader⟩
      show Function.update s₁.writer w _ = _
      rw [hwriter, Function.update_idem]

/-- A call of `log_write` that runs alone. -/
theorem exec_write {msg : Msg Loc (W ⊕ R) UInt64} (hpc : s.writer w = .idle)
    (hlast : s.mem.Last .head msg) (e : Entry) :
    ∃ s' msg', (machine W R).Exec s (writeActs w msg.val e) s' ∧ s'.writer = s.writer ∧
      s'.reader = s.reader ∧ s'.mem.Last (.seq (slotOf msg.val)) msg' ∧
      msg'.val = committed msg.val := by
  obtain ⟨s₁, hmark, hwriter₁, hreader₁⟩ : ∃ s₁, (machine W R).Exec s
      [.writeCall w e, .draw w msg.val e, .mark w msg.val] s₁ ∧
      s₁.writer = Function.update s.writer w (.copy msg.val e ∅) ∧ s₁.reader = s.reader := by
    refine ⟨_, .cons (.writeCall hpc) (.cons (.draw (Function.update_self ..) hlast)
      (.cons (.mark (Function.update_self ..)) .nil)), ?_, rfl⟩
    simp only [Function.update_idem]
  have hpc₁ : s₁.writer w = .copy msg.val e ∅ := by rw [hwriter₁, Function.update_self]
  obtain ⟨s₂, hcopy, hwriter₂, hreader₂⟩ := exec_writeCopy hpc₁ Finset.univ
  rw [Finset.card_univ, Fintype.card_fin] at hcopy
  have hpc₂ : s₂.writer w = .copy msg.val e Finset.univ := by rw [hwriter₂, Function.update_self]
  refine ⟨_, _, hmark.append (hcopy.append (.cons (.commit hpc₂) .nil)), ?_, hreader₂.trans hreader₁,
    .of_append (Memory.releaseStore_hist_self ..), rfl⟩
  show Function.update s₂.writer w .idle = s.writer
  rw [hwriter₂, hwriter₁, Function.update_idem, Function.update_idem, ← hpc, Function.update_eq_self]

/-- The reader's `memcpy`, up to the bytes in `done`. -/
theorem exec_readCopy {out : Entry} (hb : s.mem.Bounded) (hpc : s.reader r = .copy t out ∅)
    (done : Finset (Fin entryBytes)) :
    ∃ s' out', (machine W R).Exec s (List.replicate done.card (.readStep r)) s' ∧
      s'.reader r = .copy t out' done ∧ s'.writer = s.writer ∧ s'.mem.Bounded ∧
      s'.mem.hist = s.mem.hist := by
  induction done using Finset.induction_on with
  | empty => exact ⟨s, out, .nil, hpc, rfl, hb, rfl⟩
  | insert i done hi ih =>
      obtain ⟨s₁, out₁, hexec, hpc₁, hwriter, hb₁, hhist⟩ := ih
      obtain ⟨msg, hlast⟩ := hb₁.exists_last (.inr r) (.byte (slotOf t) i)
      have hf := hb₁.finds_last (.inr r) hlast
      rw [Finset.card_insert_of_notMem hi, List.replicate_succ']
      exact ⟨_, _, hexec.append (.cons (.readCopy hpc₁ hi hf) .nil), Function.update_self ..,
        hwriter, hb₁.plainLoad hf, hhist⟩

/-- A call of `log_read` that finds the last stores. -/
theorem exec_read {msg : Msg Loc (W ⊕ R) UInt64} (hb : s.mem.Bounded) (hpc : s.reader r = .idle)
    (ht : t.toNat < logSlots) (hlast : s.mem.Last (.seq (slotOf t)) msg)
    (hval : msg.val = committed t) :
    ∃ s' out, (machine W R).Exec s (readActs r t out) s' ∧ s'.writer = s.writer := by
  have hf := hb.finds_last (.inr r) hlast
  have hcall : Step s (.readCall r t)
      { s with reader := Function.update s.reader r (.load1 t fun _ => 0) } := .readCall hpc ht
  obtain ⟨s₁, hstart, hpc₁, hwriter₁, hb₁, hhist₁⟩ : ∃ s₁, (machine W R).Exec s
      [.readCall r t, .firstLoad r, .readStep r] s₁ ∧ s₁.reader r = .copy t (fun _ => 0) ∅ ∧
      s₁.writer = s.writer ∧ s₁.mem.Bounded ∧ s₁.mem.hist = s.mem.hist :=
    ⟨_, .cons hcall (.cons (.firstLoad (Function.update_self ..) hf)
      (.cons (.readStart (Function.update_self ..) hval) .nil)), Function.update_self .., rfl,
      hb.acquireLoad hf, rfl⟩
  obtain ⟨s₂, out, hcopy, hpc₂, hwriter₂, hb₂, hhist₂⟩ := exec_readCopy hb₁ hpc₁ Finset.univ
  rw [Finset.card_univ, Fintype.card_fin] at hcopy
  have hlast₂ : s₂.mem.Last (.seq (slotOf t)) msg := by
    rw [Memory.Last, hhist₂, hhist₁]
    exact hlast
  exact ⟨_, out, hstart.append (hcopy.append (.cons (.secondLoad hpc₂ (hb₂.finds_last _ hlast₂))
    (.cons (.readOk (Function.update_self ..) hval) .nil))), hwriter₂.trans hwriter₁⟩

/-- While writer 0 copies, a reader finds its slot marked.  Writer 1 writes a record, which is read. -/
theorem exec_miss_write_read (e0 e1 : Entry) :
    ∃ (as : List (Act (Fin 2) Unit)) (s : State (Fin 2) Unit) (out : Entry),
      (machine (Fin 2) Unit).Exec (start _ _) as s ∧ as.filterMap Act.drawn = [(0, e0), (1, e1)] ∧
      s.writer 0 = .copy 0 e0 {0} ∧ .ret () 0 (-1) (fun _ => 0) ∈ as ∧ .ret () 1 0 out ∈ as := by
  have hcall : ∀ s : State (Fin 2) Unit, s.reader () = .idle → Step s (.readCall () 0)
      { s with reader := Function.update s.reader () (.load1 0 fun _ => 0) } := fun _ hs =>
    .readCall hs (by decide)
  have hdraw : ∀ (s : State (Fin 2) Unit) (w : Fin 2) (t : UInt64) (e : Entry),
      s.writer w = .draw e → s.mem.Last .head ⟨t, ⊥⟩ → Step s (.draw w t e)
        { s with
          mem := s.mem.relaxedExchange (.inl w) .head ⟨t, ⊥⟩ (t + 1)
          writer := Function.update s.writer w (.mark t e) } := fun _ _ _ _ hpc hlast =>
    .draw hpc hlast
  obtain ⟨s₁, hmiss, hpc₁, hidle₁, hreader₁, msg, hlast₁, hticket⟩ :
      ∃ s₁, (machine (Fin 2) Unit).Exec (start _ _) [.writeCall 0 e0, .draw 0 0 e0, .mark 0 0,
        .writeCopy 0, .readCall () 0, .firstLoad (), .ret () 0 (-1) fun _ => 0] s₁ ∧
      s₁.writer 0 = .copy 0 e0 {0} ∧ s₁.writer 1 = .idle ∧ s₁.reader () = .idle ∧
      ∃ msg, s₁.mem.Last .head msg ∧ msg.val = 1 :=
    ⟨_, .cons (.writeCall rfl) <|
      .cons (hdraw _ _ _ _ rfl rfl) <|
      .cons (.mark rfl) <|
      .cons (.writeCopy (i := 0) rfl (Finset.notMem_empty 0)) <|
      .cons (hcall _ rfl) <|
      .cons (.firstLoad (j := 1) rfl ⟨Nat.zero_le 1, rfl⟩) <|
      .cons (.readMiss rfl (by decide)) .nil, rfl, rfl, rfl, _, rfl, rfl⟩
  obtain ⟨s₂, msg', hwrite, hwriter₂, hreader₂, hlast₂, hval⟩ := exec_write hidle₁ hlast₁ e1
  rw [hticket] at hwrite hlast₂ hval
  have hb₂ : s₂.mem.Bounded := bounded_exec (hmiss.append hwrite) (.init _)
  obtain ⟨s₃, out, hread, hwriter₃⟩ := exec_read (r := ()) hb₂ (by rw [hreader₂]; exact hreader₁)
    (by decide) hlast₂ hval
  refine ⟨_, s₃, out, hmiss.append (hwrite.append hread), ?_, ?_, ?_, ?_⟩
  · rw [List.filterMap_append, List.filterMap_append, drawn_writeActs, drawn_readActs]
    rfl
  · rw [hwriter₃, hwriter₂, hpc₁]
  · exact List.mem_append_left _ (by simp)
  · exact List.mem_append_right _ (List.mem_append_right _ (ret_mem_readActs ..))

/-! ## The logger -/

/-- As long as the tickets do not wrap, no copy of `log_write` or `log_read` is a data race, and a read
that returns 0 has the entry that was drawn with its ticket, untorn.  A thread that has joined all
writers, after they returned, finds every ticket committed and every byte of its entry. -/
theorem log_race_free {as : List (Act W R)} {s : State W R}
    (h : (machine W R).Exec (start W R) as s) (hlen : (as.filterMap Act.drawn).length ≤ logSlots) :
    ¬ s.Racy ∧
      (∀ r t out, .ret r t 0 out ∈ as → ∃ w, .draw w t out ∈ as) ∧
      ((∀ w, s.writer w = .idle) → ∀ v, (∀ w, s.mem.view (.inl w) ≤ v) →
        ∀ w t e, .draw w t e ∈ as →
          (∀ k msg, v (.store (.seq (slotOf t))) ≤ k →
            (s.mem.hist (.seq (slotOf t)))[k]? = some msg → msg.val = committed t) ∧
          ∀ i k msg, v (.store (.byte (slotOf t) i)) ≤ k →
            (s.mem.hist (.byte (slotOf t) i))[k]? = some msg → msg.val = (e i).toUInt64) := by
  obtain ⟨⟨phase, hinv⟩, hret⟩ := inv_start.exec h hlen
  rw [List.nil_append] at hinv hret
  refine ⟨hinv.not_racy, fun r t out hin => ?_, fun hidle v hv w t e hin => ?_⟩
  · obtain ⟨a, ha, hdrawn⟩ := List.mem_filterMap.mp (hret r t out hin)
    obtain ⟨w, rfl⟩ := Act.drawn_eq_some.mp hdrawn
    exact ⟨w, ha⟩
  · exact hinv.found hidle hv (List.mem_filterMap.mpr ⟨_, hin, rfl⟩)

/-- One read finds a slot marked, and one gets the whole record while the other writer still copies. -/
theorem log_race_free_two :
    ∃ as, ∃ s : State (Fin 2) Unit, (machine (Fin 2) Unit).Exec (start _ _) as s ∧
      as.filterMap Act.drawn = [(0, fun _ => 7), (1, fun _ => 9)] ∧
      s.writer 0 = .copy 0 (fun _ => 7) {0} ∧ .ret () 0 (-1) (fun _ => 0) ∈ as ∧
      .ret () 1 0 (fun _ => 9) ∈ as ∧ ¬ s.Racy := by
  obtain ⟨as, s, out, h, hdrawn, hpc, hmiss, hread⟩ :=
    exec_miss_write_read (fun _ => 7) fun _ => 9
  obtain ⟨hrace, hret, -⟩ := log_race_free h (by rw [hdrawn]; decide)
  -- The read has the entry that was drawn with its ticket.
  obtain ⟨w, hw⟩ := hret () 1 out hread
  have hout : (1, out) ∈ as.filterMap Act.drawn := List.mem_filterMap.mpr ⟨_, hw, rfl⟩
  rw [hdrawn] at hout
  obtain rfl : out = fun _ => 9 := by simpa using hout
  exact ⟨as, s, h, hdrawn, hpc, hmiss, hread, hrace⟩

end ReleaseAcquire

end Logger
