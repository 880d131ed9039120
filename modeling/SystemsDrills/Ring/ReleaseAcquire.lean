import SystemsDrills.Lib.Views
import SystemsDrills.Ring.Spsc
import Mathlib.Data.Nat.Count

/-!
# The ring without sequential consistency

`ring_write` and `ring_read` of `SPSC_Ring_buffer/rb.c` on the memory of `SystemsDrills.Lib.Views`,
with the memory orders of the source: each side loads its own counter relaxed and the other's with
acquire, stores its own with release, and accesses the buffer with plain loads and stores.  A load of
the other side's counter may find any store that is not known to be replaced, however old.

The places of the two threads and the labels are those of `SystemsDrills.Ring.Spsc`.

The comments in the source give the argument.  The store to `head` publishes the slot, and the store
to `tail` publishes that the slot was read.  In terms of views: who knows that `head` is `k` knows the
stores of the first `k` items, and who knows that `tail` is `k` knows that the first `k` were read
(`Closed`).  So no access of a slot is a race, and the values come out as they went in.
-/

namespace Spsc

/-- The value that is in its slot and not yet published. -/
def ProdPc.pending : ProdPc → List UInt64
  | .storeHead v _ => [v]
  | _ => []

/-- The number of values that were read and not yet passed. -/
def ConsPc.taken : ConsPc → Nat
  | .storeTail _ => 1
  | _ => 0

/-- What the producer's locals say when `W` values were published and `R` were passed, and it knows that
`tail` has come to `known`. -/
def ProdPc.Knows (cap W R known : Nat) : ProdPc → Prop
  | .idle | .loadHead _ => True
  | .loadTail _ h => h = UInt64.ofNat W
  | .test _ h t =>
      h = UInt64.ofNat W ∧ ∃ R', t = UInt64.ofNat R' ∧ R' ≤ R ∧ R' ≤ known ∧ W ≤ R' + cap
  | .storeBuf _ h | .storeHead _ h =>
      h = UInt64.ofNat W ∧ ∃ R', R' ≤ R ∧ R' ≤ known ∧ W < R' + cap

/-- What the consumer's locals say when it knows that `head` has come to `known`. -/
def ConsPc.Knows (W R known : Nat) : ConsPc → Prop
  | .idle | .loadTail => True
  | .loadHead t => t = UInt64.ofNat R
  | .test t h => t = UInt64.ofNat R ∧ ∃ W', h = UInt64.ofNat W' ∧ W' ≤ W ∧ W' ≤ known ∧ R ≤ W'
  | .loadBuf t | .storeTail t => t = UInt64.ofNat R ∧ ∃ W', W' ≤ W ∧ W' ≤ known ∧ R < W'

theorem ProdPc.Knows.mono {cap W R R' known known' : Nat} {p : ProdPc} (h : p.Knows cap W R known)
    (hR : R ≤ R') (hknown : known ≤ known') : p.Knows cap W R' known' := by
  cases p with
  | idle => trivial
  | loadHead v => trivial
  | loadTail v x => exact h
  | test v x t =>
      obtain ⟨hx, r, ht, hrR, hrk, hW⟩ := h
      exact ⟨hx, r, ht, hrR.trans hR, hrk.trans hknown, hW⟩
  | storeBuf v x | storeHead v x =>
      obtain ⟨hx, r, hrR, hrk, hW⟩ := h
      exact ⟨hx, r, hrR.trans hR, hrk.trans hknown, hW⟩

theorem ConsPc.Knows.mono {W W' R known known' : Nat} {c : ConsPc} (h : c.Knows W R known)
    (hW : W ≤ W') (hknown : known ≤ known') : c.Knows W' R known' := by
  cases c with
  | idle => trivial
  | loadTail => trivial
  | loadHead t => exact h
  | test t x =>
      obtain ⟨ht, w, hx, hwW, hwk, hR⟩ := h
      exact ⟨ht, w, hx, hwW.trans hW, hwk.trans hknown, hR⟩
  | loadBuf t | storeTail t =>
      obtain ⟨ht, w, hwW, hwk, hR⟩ := h
      exact ⟨ht, w, hwW.trans hW, hwk.trans hknown, hR⟩

namespace ReleaseAcquire

open Transition Cyclic Views

/-! ## The machine -/

inductive Loc where
  | head
  | tail
  | buf (slot : Nat)
deriving DecidableEq

inductive Thread where
  | producer
  | consumer
deriving DecidableEq

structure State where
  mem : Memory Loc Thread UInt64
  out : UInt64
  prod : ProdPc
  cons : ConsPc

inductive Step (ring : Ring) : State → Act → State → Prop where
  | writeCall :
      s.prod = .idle →
      Step ring s (.writeCall v) { s with prod := .loadHead v }
  | writeLoadHead :
      s.prod = .loadHead v → s.mem.Finds .producer .head j msg →
      Step ring s .writeStep
        { s with mem := s.mem.relaxedLoad .producer .head j, prod := .loadTail v msg.val }
  | writeLoadTail :
      s.prod = .loadTail v h → s.mem.Finds .producer .tail j msg →
      Step ring s .writeStep
        { s with mem := s.mem.acquireLoad .producer .tail j msg, prod := .test v h msg.val }
  | writeFull :
      s.prod = .test v h t → h - t = ring.capacity →
      Step ring s .writeFalse { s with prod := .idle }
  | writeRoom :
      s.prod = .test v h t → h - t ≠ ring.capacity →
      Step ring s .writeStep { s with prod := .storeBuf v h }
  | writeStore :
      s.prod = .storeBuf v h →
      Step ring s .writeStep
        { s with
          mem := s.mem.plainStore .producer (.buf (ring.slot h)) v
          prod := .storeHead v h }
  | writePublish :
      s.prod = .storeHead v h →
      Step ring s (.writeTrue v)
        { s with mem := s.mem.releaseStore .producer .head (h + 1), prod := .idle }
  | readCall :
      s.cons = .idle →
      Step ring s .readCall { s with cons := .loadTail }
  | readLoadTail :
      s.cons = .loadTail → s.mem.Finds .consumer .tail j msg →
      Step ring s .readStep
        { s with mem := s.mem.relaxedLoad .consumer .tail j, cons := .loadHead msg.val }
  | readLoadHead :
      s.cons = .loadHead t → s.mem.Finds .consumer .head j msg →
      Step ring s .readStep
        { s with mem := s.mem.acquireLoad .consumer .head j msg, cons := .test t msg.val }
  | readEmpty :
      s.cons = .test t h → h = t →
      Step ring s .readFalse { s with cons := .idle }
  | readSome :
      s.cons = .test t h → h ≠ t →
      Step ring s .readStep { s with cons := .loadBuf t }
  | readLoad :
      s.cons = .loadBuf t → s.mem.Finds .consumer (.buf (ring.slot t)) j msg →
      Step ring s .readStep
        { s with
          mem := s.mem.plainLoad .consumer (.buf (ring.slot t)) j
          out := msg.val
          cons := .storeTail t }
  | readPublish :
      s.cons = .storeTail t →
      Step ring s (.readTrue s.out)
        { s with mem := s.mem.releaseStore .consumer .tail (t + 1), cons := .idle }

/-- What a location holds at first. -/
def contents (ring : Ring) : Loc → UInt64
  | .head => ring.head
  | .tail => ring.tail
  | .buf i => ring.buf[i]?.getD 0

/-- One producer and one consumer on a ring that `init_ring` returned, which both know.  Its block has
all the slots that were asked for. -/
def machine (ring : Ring) : System State Act where
  init s := (∃ malloc capacity, initRing malloc capacity = some ring) ∧
    ring.buf.length = ring.capacity.toNat ∧ s.mem = .init (contents ring) ∧
    s.prod = .idle ∧ s.cons = .idle
  step := Step ring

/-- The next step of a thread is an access of the buffer that may run at the same time as another one
of the same slot. -/
inductive State.Racy (ring : Ring) (s : State) : Prop where
  | store : s.prod = .storeBuf v h → ¬ s.mem.MayStore .producer (.buf (ring.slot h)) → s.Racy ring
  | load : s.cons = .loadBuf t → ¬ s.mem.MayLoad .consumer (.buf (ring.slot t)) → s.Racy ring

/-! ## Items in a slot -/

/-- How many of the first `k` items are in the slot. -/
def before (cap slot k : Nat) : Nat := Nat.count (fun i => i % cap = slot) k

variable {cap slot a b k : Nat}

theorem before_mono (cap slot : Nat) (h : a ≤ b) : before cap slot a ≤ before cap slot b :=
  Nat.count_monotone _ h

theorem before_succ (cap slot k : Nat) :
    before cap slot (k + 1) = before cap slot k + if k % cap = slot then 1 else 0 :=
  Nat.count_succ _ k

theorem before_eq (hab : a ≤ b) (h : ∀ i, a ≤ i → i < b → i % cap ≠ slot) :
    before cap slot b = before cap slot a := by
  induction b, hab using Nat.le_induction with
  | base => rfl
  | succ b hab ih =>
      rw [before_succ, if_neg (h b hab (Nat.lt_succ_self b)), Nat.add_zero]
      exact ih fun i hi hib => h i hi (Nat.lt_succ_of_lt hib)

/-- No other item up to `cap` behind an item is in its slot. -/
theorem before_eq_of_le (hk : k + 1 ≤ b) (hb : b ≤ k + cap) :
    before cap (k % cap) b = before cap (k % cap) k + 1 := by
  have hnone : before cap (k % cap) b = before cap (k % cap) (k + 1) :=
    before_eq hk fun i hi hib => (mod_ne hi (by omega)).symm
  rw [hnone, before_succ, if_pos rfl]

/-! ## Views -/

/-- Who knows that `head` is `k` knows the stores of the first `k` items, and who knows that `tail` is
`k` knows that they were read. -/
def Closed (cap : Nat) (v : View Loc Thread) : Prop :=
  ∀ slot, before cap slot (v (.store .head)) ≤ v (.store (.buf slot)) ∧
    before cap slot (v (.store .tail)) ≤ v (.load (.buf slot) .consumer)

variable {v w : View Loc Thread}

theorem Closed.bot : Closed cap ⊥ := fun _ => ⟨Nat.zero_le _, Nat.zero_le _⟩

theorem Closed.sup (hv : Closed cap v) (hw : Closed cap w) : Closed cap (v ⊔ w) := by
  intro slot
  obtain ⟨hv1, hv2⟩ := hv slot
  obtain ⟨hw1, hw2⟩ := hw slot
  simp only [Pi.sup_apply]
  constructor
  · rcases le_total (v (.store .head)) (w (.store .head)) with h | h
    · rw [sup_eq_right.mpr h]
      exact hw1.trans le_sup_right
    · rw [sup_eq_left.mpr h]
      exact hv1.trans le_sup_left
  · rcases le_total (v (.store .tail)) (w (.store .tail)) with h | h
    · rw [sup_eq_right.mpr h]
      exact hw2.trans le_sup_right
    · rw [sup_eq_left.mpr h]
      exact hv2.trans le_sup_left

/-- What is not about the counters may be added. -/
theorem Closed.add (hv : Closed cap v) (hhead : w (.store .head) = 0) (htail : w (.store .tail) = 0) :
    Closed cap (v ⊔ w) := by
  refine hv.sup fun slot => ?_
  rw [hhead, htail]
  exact ⟨Nat.zero_le _, Nat.zero_le _⟩

/-- A thread that knows the first `k` items may add that `head` is `k`. -/
theorem Closed.publish (hv : Closed cap v) (h : ∀ slot, before cap slot k ≤ v (.store (.buf slot))) :
    Closed cap (v ⊔ .upTo .head k) := by
  intro slot
  have hhead : (v ⊔ .upTo .head k) (.store .head) = v (.store .head) ⊔ k := by simp
  have htail : (v ⊔ .upTo .head k) (.store .tail) = v (.store .tail) := by simp
  rw [hhead, htail]
  refine ⟨le_trans ?_ le_sup_left, (hv slot).2.trans le_sup_left⟩
  rcases le_total (v (.store .head)) k with hk | hk
  · rw [sup_eq_right.mpr hk]
    exact h slot
  · rw [sup_eq_left.mpr hk]
    exact (hv slot).1

/-- A thread that knows that the first `k` items were read may add that `tail` is `k`. -/
theorem Closed.pass (hv : Closed cap v)
    (h : ∀ slot, before cap slot k ≤ v (.load (.buf slot) .consumer)) :
    Closed cap (v ⊔ .upTo .tail k) := by
  intro slot
  have hhead : (v ⊔ .upTo .tail k) (.store .head) = v (.store .head) := by simp
  have htail : (v ⊔ .upTo .tail k) (.store .tail) = v (.store .tail) ⊔ k := by simp
  rw [hhead, htail]
  refine ⟨(hv slot).1.trans le_sup_left, le_trans ?_ le_sup_left⟩
  rcases le_total (v (.store .tail)) k with hk | hk
  · rw [sup_eq_right.mpr hk]
    exact h slot
  · rw [sup_eq_left.mpr hk]
    exact (hv slot).2

/-! ## The invariant -/

/-- The values `ws` were published and the first `R` of them were passed. -/
structure State.Inv (s : State) (ring : Ring) (ws : List UInt64) (R : Nat) : Prop where
  shaped : ring.Shaped
  closed : s.mem.AllViews (Closed ring.capacity.toNat)
  released : s.mem.Released .head ∧ s.mem.Released .tail
  own : s.mem.KnowsOwn
  heads : (s.mem.hist .head).map Msg.val = (List.range (ws.length + 1)).map UInt64.ofNat
  tails : (s.mem.hist .tail).map Msg.val = (List.range (R + 1)).map UInt64.ofNat
  slots : ∀ i, (s.mem.hist (.buf i)).length =
    before ring.capacity.toNat i (ws ++ s.prod.pending).length + 1
  items : ∀ i x, (ws ++ s.prod.pending)[i]? = some x →
    ∃ msg, (s.mem.hist (.buf (i % ring.capacity.toNat)))[
      before ring.capacity.toNat (i % ring.capacity.toNat) i + 1]? = some msg ∧ msg.val = x
  loads : ∀ i, s.mem.loads (.buf i) .consumer = before ring.capacity.toNat i (R + s.cons.taken)
  unread : ∀ i, s.mem.loads (.buf i) .producer = 0
  prodLatest : s.mem.Latest .producer .head ∧ ∀ i, s.mem.Latest .producer (.buf i)
  consLatest : s.mem.Latest .consumer .tail
  le : R ≤ ws.length
  fits : ws.length ≤ R + ring.capacity.toNat
  room : ws.length ≤ s.mem.view .producer (.store .tail) + ring.capacity.toNat
  reached : R ≤ s.mem.view .consumer (.store .head)
  prod : s.prod.Knows ring.capacity.toNat ws.length R (s.mem.view .producer (.store .tail))
  cons : s.cons.Knows ws.length R (s.mem.view .consumer (.store .head))
  out : ∀ t, s.cons = .storeTail t → ws[R]? = some s.out

variable {ring : Ring} {s s' : State} {ws : List UInt64} {R j : Nat} {msg : Msg Loc Thread UInt64}

theorem inv_start (h : (machine ring).init s) : s.Inv ring [] 0 := by
  obtain ⟨⟨malloc, capacity, hring⟩, -, hmem, hprod, hcons⟩ := h
  obtain ⟨hshaped, -, -, hhead, htail⟩ := initRing_eq_some hring
  obtain ⟨mem, out, prod, cons⟩ := s
  subst hmem hprod hcons
  constructor
  case shaped => exact hshaped
  case closed => exact .init Closed.bot _
  case released => exact ⟨.init _ _, .init _ _⟩
  case own => exact .init _
  case heads => exact congrArg (fun x => [x]) hhead
  case tails => exact congrArg (fun x => [x]) htail
  case slots => exact fun i => rfl
  case items => exact fun i x hx => nomatch hx
  case loads => exact fun i => rfl
  case unread => exact fun i => rfl
  case prodLatest => exact ⟨le_rfl, fun i => le_rfl⟩
  case consLatest => exact le_rfl
  case le => exact le_rfl
  case fits => exact Nat.zero_le _
  case room => exact Nat.zero_le _
  case reached => exact Nat.zero_le _
  case prod => trivial
  case cons => trivial
  case out => exact fun t ht => nomatch ht

/-- A thread joins a view that it finds in the memory. -/
theorem State.Inv.learn (h : s.Inv ring ws R) (t : Thread)
    (hv : Closed ring.capacity.toNat v) : State.Inv { s with mem := s.mem.learn t v } ring ws R := by
  have hview : ∀ u, s.mem.view u ≤ (s.mem.learn t v).view u := fun u =>
    Memory.view_le_learn s.mem t u v
  constructor
  case shaped => exact h.shaped
  case closed => exact h.closed.learn ((h.closed.threads t).sup hv)
  case released => exact h.released
  case own => exact h.own.learn t v
  case heads => exact h.heads
  case tails => exact h.tails
  case slots => exact h.slots
  case items => exact h.items
  case loads => exact h.loads
  case unread => exact h.unread
  case prodLatest => exact ⟨h.prodLatest.1.learn t v, fun i => (h.prodLatest.2 i).learn t v⟩
  case consLatest => exact h.consLatest.learn t v
  case le => exact h.le
  case fits => exact h.fits
  case room => exact h.room.trans (Nat.add_le_add_right (hview .producer _) _)
  case reached => exact h.reached.trans (hview .consumer _)
  case prod => exact h.prod.mono le_rfl (hview .producer _)
  case cons => exact h.cons.mono le_rfl (hview .consumer _)
  case out => exact h.out

theorem State.Inv.gotoProd (h : s.Inv ring ws R) {p : ProdPc} (hpending : p.pending = s.prod.pending)
    (hp : p.Knows ring.capacity.toNat ws.length R (s.mem.view .producer (.store .tail))) :
    State.Inv { s with prod := p } ring ws R :=
  { h with
    slots := fun i => by rw [hpending]; exact h.slots i
    items := fun i x hx => h.items i x (by rwa [hpending] at hx)
    prod := hp }

theorem State.Inv.gotoCons (h : s.Inv ring ws R) {c : ConsPc} (htaken : c.taken = s.cons.taken)
    (hc : c.Knows ws.length R (s.mem.view .consumer (.store .head)))
    (hout : ∀ t, c ≠ .storeTail t) : State.Inv { s with cons := c } ring ws R :=
  { h with
    loads := fun i => by rw [htaken]; exact h.loads i
    cons := hc
    out := fun t ht => absurd ht (hout t) }

/-- A load of a counter whose stores count up from zero. -/
theorem val_of_range {hist : List (Msg Loc Thread UInt64)} {n : Nat}
    (h : hist.map Msg.val = (List.range (n + 1)).map UInt64.ofNat) (hj : hist[j]? = some msg) :
    j ≤ n ∧ msg.val = UInt64.ofNat j := by
  have hget : (hist.map Msg.val)[j]? = some msg.val := by
    rw [List.getElem?_map, hj]
    rfl
  rw [h, List.getElem?_map, Option.map_eq_some_iff] at hget
  obtain ⟨i, hi, hval⟩ := hget
  obtain ⟨hlt, rfl⟩ := List.getElem?_eq_some_iff.mp hi
  rw [List.length_range] at hlt
  rw [List.getElem_range] at hval
  exact ⟨Nat.le_of_lt_succ hlt, hval.symm⟩

theorem length_of_range {hist : List (Msg Loc Thread UInt64)} {n : Nat}
    (h : hist.map Msg.val = (List.range (n + 1)).map UInt64.ofNat) : hist.length = n + 1 := by
  simpa using congrArg List.length h

/-- A store of the next number. -/
theorem range_push {hist : List (Msg Loc Thread UInt64)} {n : Nat}
    (h : hist.map Msg.val = (List.range (n + 1)).map UInt64.ofNat) (v : View Loc Thread) :
    (hist ++ [(⟨UInt64.ofNat n + 1, v⟩ : Msg Loc Thread UInt64)]).map Msg.val =
      (List.range (n + 1 + 1)).map UInt64.ofNat := by
  rw [List.map_append, h, List.range_succ (n := n + 1), List.map_append, List.map_singleton,
    List.map_singleton, ofNat_succ]

/-! ## The accesses of the buffer -/

/-- The item that the producer is about to publish fits too. -/
theorem State.Inv.pending_fits (h : s.Inv ring ws R) :
    (ws ++ s.prod.pending).length ≤ R + ring.capacity.toNat := by
  have hfits := h.fits
  have hprod := h.prod
  rw [List.length_append]
  cases hpc : s.prod with
  | storeHead v x =>
      rw [hpc] at hprod
      obtain ⟨-, R', hR', -, hW⟩ := hprod
      show ws.length + 1 ≤ _
      omega
  | _ => exact hfits

/-- The item that the consumer has read is one of those published. -/
theorem State.Inv.taken_le (h : s.Inv ring ws R) : R + s.cons.taken ≤ ws.length := by
  have hle := h.le
  have hcons := h.cons
  cases hpc : s.cons with
  | storeTail t =>
      rw [hpc] at hcons
      obtain ⟨-, W', hW', -, hR⟩ := hcons
      show R + 1 ≤ _
      omega
  | _ => exact hle

/-- The producer knows that the slot of the next item was read. -/
theorem State.Inv.mayStore (h : s.Inv ring ws R) {x t : UInt64} (hpc : s.prod = .storeBuf x t) :
    s.mem.MayStore .producer (.buf (ring.slot t)) := by
  have hprod := h.prod
  rw [hpc] at hprod
  obtain ⟨rfl, R', hR', hknown, hW⟩ := hprod
  rw [h.shaped.slot_ofNat]
  refine ⟨h.prodLatest.2 _, fun u => ?_⟩
  cases u with
  | producer =>
      rw [h.unread]
      exact Nat.zero_le _
  | consumer =>
      have htaken := h.taken_le
      -- The items from `R'` on that were read are less than `capacity` behind the one to be stored.
      have hnone : before ring.capacity.toNat (ws.length % ring.capacity.toNat) (R + s.cons.taken) =
          before ring.capacity.toNat (ws.length % ring.capacity.toNat) R' :=
        before_eq (by omega) fun i hi hlt => mod_ne (by omega) (by omega)
      rw [h.loads, hnone]
      exact (before_mono _ _ hknown).trans ((h.closed.threads .producer) _).2

/-- The consumer knows the store of the next item, and there is no later one in its slot. -/
theorem State.Inv.mayLoad (h : s.Inv ring ws R) {t : UInt64} (hpc : s.cons = .loadBuf t) :
    s.mem.MayLoad .consumer (.buf (ring.slot t)) ∧
      ∀ j msg, s.mem.Finds .consumer (.buf (ring.slot t)) j msg → ws[R]? = some msg.val := by
  have hcons := h.cons
  rw [hpc] at hcons
  obtain ⟨rfl, W', hW', hknown, hR⟩ := hcons
  rw [h.shaped.slot_ofNat]
  have hlen := h.slots (R % ring.capacity.toNat)
  rw [before_eq_of_le (by rw [List.length_append]; omega) h.pending_fits] at hlen
  have hmay : s.mem.MayLoad .consumer (.buf (R % ring.capacity.toNat)) := by
    have hW : before ring.capacity.toNat (R % ring.capacity.toNat) (R + 1) ≤ _ :=
      (before_mono _ _ (Nat.succ_le_of_lt hR)).trans
        ((before_mono _ _ hknown).trans ((h.closed.threads .consumer) _).1)
    rw [before_succ, if_pos rfl] at hW
    rw [Memory.MayLoad, Memory.Latest, hlen]
    exact Nat.succ_le_succ hW
  refine ⟨hmay, fun j msg hf => ?_⟩
  have hlt : R < ws.length := by omega
  obtain ⟨msg', hmsg', hval⟩ := h.items R ws[R] (by
    rw [List.getElem?_append_left hlt, List.getElem?_eq_getElem hlt])
  have hj : j = before ring.capacity.toNat (R % ring.capacity.toNat) R + 1 := by
    have := hf.eq_last hmay
    omega
  have heq : msg = msg' := Option.some.inj (hf.2.symm.trans (hj ▸ hmsg'))
  rw [List.getElem?_eq_getElem hlt, heq, hval]

/-! ## The steps -/

/-- The producer stores an item into its slot. -/
theorem State.Inv.writeStore (h : s.Inv ring ws R) {x t : UInt64} (hpc : s.prod = .storeBuf x t) :
    State.Inv
      { s with
        mem := s.mem.plainStore .producer (.buf (ring.slot t)) x
        prod := .storeHead x t } ring ws R := by
  have hprod := h.prod
  rw [hpc] at hprod
  have ht := hprod.1
  have hslot : ring.slot t = ws.length % ring.capacity.toNat := by rw [ht, h.shaped.slot_ofNat]
  rw [hslot]
  have hslots := h.slots
  have hitems := h.items
  rw [hpc] at hslots hitems
  simp only [ProdPc.pending, List.append_nil] at hslots hitems
  have hview : ∀ u, s.mem.view u ≤ _ := fun u =>
    Memory.view_le_plainStore s.mem .producer u (.buf (ws.length % ring.capacity.toNat)) x
  constructor
  case shaped => exact h.shaped
  case closed =>
    refine (h.closed.push _ x Closed.bot).learn ((h.closed.threads .producer).add ?_ ?_)
    · exact View.upTo_of_ne (by simp) _
    · exact View.upTo_of_ne (by simp) _
  case released =>
    exact ⟨h.released.1.plainStore (by simp) .producer x, h.released.2.plainStore (by simp) .producer x⟩
  case own => exact Memory.KnowsOwn.learn (m := s.mem.push _ x ⊥) h.own _ _
  case heads =>
    rw [Memory.plainStore_hist_of_ne _ _ _ (by simp)]
    exact h.heads
  case tails =>
    rw [Memory.plainStore_hist_of_ne _ _ _ (by simp)]
    exact h.tails
  case slots =>
    intro i
    show _ = before _ i (ws ++ [x]).length + 1
    rw [List.length_append, List.length_singleton, before_succ]
    by_cases hi : ws.length % ring.capacity.toNat = i
    · subst hi
      rw [Memory.plainStore_hist_self, List.length_append, hslots, if_pos rfl]
      rfl
    · rw [Memory.plainStore_hist_of_ne _ _ _ (by simpa using Ne.symm hi), hslots, if_neg hi]
  case items =>
    intro i y hy
    change (ws ++ [x])[i]? = some y at hy
    rw [List.getElem?_append] at hy
    split at hy
    · obtain ⟨msg, hmsg, hval⟩ := hitems i y hy
      exact ⟨msg, Memory.getElem?_push hmsg _ x ⊥, hval⟩
    · next hi =>
      obtain ⟨hlast, hyx⟩ := List.getElem?_eq_some_iff.mp hy
      have hi : i = ws.length := by
        rw [List.length_singleton] at hlast
        omega
      subst hi
      refine ⟨⟨x, ⊥⟩, ?_, by simpa using hyx⟩
      rw [Memory.plainStore_hist_self, ← hslots, List.getElem?_concat_length]
  case loads => exact h.loads
  case unread => exact h.unread
  case prodLatest => exact ⟨h.prodLatest.1.store _ x ⊥, fun i => (h.prodLatest.2 i).store _ x ⊥⟩
  case consLatest =>
    rw [Memory.Latest, Memory.plainStore_hist_of_ne _ _ _ (by simp)]
    exact h.consLatest.trans (Nat.succ_le_succ (hview .consumer _))
  case le => exact h.le
  case fits => exact h.fits
  case room => exact h.room.trans (Nat.add_le_add_right (hview .producer _) _)
  case reached => exact h.reached.trans (hview .consumer _)
  case prod => exact ProdPc.Knows.mono (p := .storeHead x t) hprod le_rfl (hview .producer _)
  case cons => exact h.cons.mono le_rfl (hview .consumer _)
  case out => exact h.out

/-- The producer publishes the item that it stored. -/
theorem State.Inv.writePublish (h : s.Inv ring ws R) {x t : UInt64} (hpc : s.prod = .storeHead x t) :
    State.Inv { s with mem := s.mem.releaseStore .producer .head (t + 1), prod := .idle } ring
      (ws ++ [x]) R := by
  have hprod := h.prod
  rw [hpc] at hprod
  obtain ⟨rfl, R', hR', hknown, hW⟩ := hprod
  have hslots := h.slots
  have hitems := h.items
  rw [hpc] at hslots hitems
  have hlen : (ws ++ [x]).length = ws.length + 1 := List.length_append
  have hhist : (s.mem.hist .head).length = ws.length + 1 := length_of_range h.heads
  have hview : ∀ u, s.mem.view u ≤ _ := fun u =>
    Memory.view_le_releaseStore s.mem .producer u .head (UInt64.ofNat ws.length + 1)
  -- The producer knows its own stores, so it may say that `head` has come past the item.
  have hclosed : Closed ring.capacity.toNat
      (s.mem.view .producer ⊔ .upTo .head (s.mem.hist .head).length) := by
    refine (h.closed.threads .producer).publish fun slot => ?_
    have hlatest := h.prodLatest.2 slot
    rw [Memory.Latest, hslots] at hlatest
    rw [hhist, ← hlen]
    exact Nat.le_of_succ_le_succ hlatest
  constructor
  case shaped => exact h.shaped
  case closed => exact (h.closed.push .head _ hclosed).learn hclosed
  case released =>
    exact ⟨h.released.1.releaseStore .producer _, h.released.2.releaseStore_of_ne (by simp) .producer _⟩
  case own => exact Memory.KnowsOwn.learn (m := s.mem.push .head _ _) h.own _ _
  case heads =>
    rw [Memory.releaseStore_hist_self, hlen]
    exact range_push h.heads _
  case tails =>
    rw [Memory.releaseStore_hist_of_ne _ _ _ (by simp)]
    exact h.tails
  case slots =>
    intro i
    rw [Memory.releaseStore_hist_of_ne _ _ _ (by simp)]
    simpa [ProdPc.pending] using hslots i
  case items =>
    intro i y hy
    rw [Memory.releaseStore_hist_of_ne _ _ _ (by simp)]
    exact hitems i y (by simpa [ProdPc.pending] using hy)
  case loads => exact h.loads
  case unread => exact h.unread
  case prodLatest => exact ⟨h.prodLatest.1.store _ _ _, fun i => (h.prodLatest.2 i).store _ _ _⟩
  case consLatest =>
    rw [Memory.Latest, Memory.releaseStore_hist_of_ne _ _ _ (by simp)]
    exact h.consLatest.trans (Nat.succ_le_succ (hview .consumer _))
  case le => exact h.le.trans (by omega)
  case fits => omega
  case room =>
    refine le_trans ?_ (Nat.add_le_add_right (hview .producer (.store .tail)) _)
    omega
  case reached => exact h.reached.trans (hview .consumer _)
  case prod => trivial
  case cons => exact h.cons.mono (by omega) (hview .consumer _)
  case out =>
    intro t ht
    have hout := h.out t ht
    rw [List.getElem?_append_left (List.getElem?_eq_some_iff.mp hout).1]
    exact hout

/-- The consumer loads an item from its slot. -/
theorem State.Inv.readLoad (h : s.Inv ring ws R) {t : UInt64} (hpc : s.cons = .loadBuf t)
    (hf : s.mem.Finds .consumer (.buf (ring.slot t)) j msg) :
    State.Inv
      { s with
        mem := s.mem.plainLoad .consumer (.buf (ring.slot t)) j
        out := msg.val
        cons := .storeTail t } ring ws R := by
  have hval := (h.mayLoad hpc).2 j msg hf
  have hcons := h.cons
  rw [hpc] at hcons
  have ht := hcons.1
  have hslot : ring.slot t = R % ring.capacity.toNat := by rw [ht, h.shaped.slot_ofNat]
  rw [hslot]
  have hloads := h.loads
  rw [hpc] at hloads
  have hview : ∀ u, s.mem.view u ≤ _ := fun u =>
    Memory.view_le_plainLoad s.mem .consumer u (.buf (R % ring.capacity.toNat)) j
  constructor
  case shaped => exact h.shaped
  case closed =>
    refine ⟨(h.closed.learn ((h.closed.threads .consumer).add ?_ ?_)).threads, h.closed.stores⟩
    · simp
    · simp
  case released => exact h.released
  case own => exact h.own.plainLoad _ _ _
  case heads => exact h.heads
  case tails => exact h.tails
  case slots => exact h.slots
  case items => exact h.items
  case loads =>
    intro i
    show _ = before _ i (R + 1)
    rw [before_succ]
    by_cases hi : R % ring.capacity.toNat = i
    · subst hi
      rw [Memory.plainLoad_loads_self, hloads, if_pos rfl]
      rfl
    · rw [Memory.plainLoad_loads_of_ne _ _ (.inr (by simpa using Ne.symm hi)), hloads, if_neg hi]
      rfl
  case unread =>
    intro i
    rw [Memory.plainLoad_loads_of_ne _ _ (.inl (by simp))]
    exact h.unread i
  case prodLatest =>
    exact ⟨h.prodLatest.1.plainLoad _ _ _, fun i => (h.prodLatest.2 i).plainLoad _ _ _⟩
  case consLatest => exact h.consLatest.plainLoad _ _ _
  case le => exact h.le
  case fits => exact h.fits
  case room => exact h.room.trans (Nat.add_le_add_right (hview .producer _) _)
  case reached => exact h.reached.trans (hview .consumer _)
  case prod => exact h.prod.mono le_rfl (hview .producer _)
  case cons => exact ConsPc.Knows.mono (c := .storeTail t) hcons le_rfl (hview .consumer _)
  case out => exact fun _ _ => hval

/-- The consumer passes the item that it read. -/
theorem State.Inv.readPublish (h : s.Inv ring ws R) {t : UInt64} (hpc : s.cons = .storeTail t) :
    State.Inv { s with mem := s.mem.releaseStore .consumer .tail (t + 1), cons := .idle } ring
      ws (R + 1) := by
  have hcons := h.cons
  rw [hpc] at hcons
  obtain ⟨rfl, W', hW', hknown, hR⟩ := hcons
  have hloads := h.loads
  rw [hpc] at hloads
  have hfits := h.fits
  have hhist : (s.mem.hist .tail).length = R + 1 := length_of_range h.tails
  have hview : ∀ u, s.mem.view u ≤ _ := fun u =>
    Memory.view_le_releaseStore s.mem .consumer u .tail (UInt64.ofNat R + 1)
  -- The consumer knows its own loads, so it may say that `tail` has come past the item.
  have hclosed : Closed ring.capacity.toNat
      (s.mem.view .consumer ⊔ .upTo .tail (s.mem.hist .tail).length) := by
    refine (h.closed.threads .consumer).pass fun slot => ?_
    have hown := h.own .consumer (.buf slot)
    rw [hloads] at hown
    rw [hhist]
    exact hown
  constructor
  case shaped => exact h.shaped
  case closed => exact (h.closed.push .tail _ hclosed).learn hclosed
  case released =>
    exact ⟨h.released.1.releaseStore_of_ne (by simp) .consumer _, h.released.2.releaseStore .consumer _⟩
  case own => exact Memory.KnowsOwn.learn (m := s.mem.push .tail _ _) h.own _ _
  case heads =>
    rw [Memory.releaseStore_hist_of_ne _ _ _ (by simp)]
    exact h.heads
  case tails =>
    rw [Memory.releaseStore_hist_self]
    exact range_push h.tails _
  case slots =>
    intro i
    rw [Memory.releaseStore_hist_of_ne _ _ _ (by simp)]
    exact h.slots i
  case items =>
    intro i y hy
    rw [Memory.releaseStore_hist_of_ne _ _ _ (by simp)]
    exact h.items i y hy
  case loads => exact hloads
  case unread => exact h.unread
  case prodLatest =>
    refine ⟨?_, fun i => ?_⟩
    · rw [Memory.Latest, Memory.releaseStore_hist_of_ne _ _ _ (by simp)]
      exact h.prodLatest.1.trans (Nat.succ_le_succ (hview .producer _))
    · rw [Memory.Latest, Memory.releaseStore_hist_of_ne _ _ _ (by simp)]
      exact (h.prodLatest.2 i).trans (Nat.succ_le_succ (hview .producer _))
  case consLatest => exact h.consLatest.store _ _ _
  case le => omega
  case fits => omega
  case room => exact h.room.trans (Nat.add_le_add_right (hview .producer _) _)
  case reached =>
    refine le_trans ?_ (hview .consumer (.store .head))
    omega
  case prod => exact h.prod.mono (Nat.le_succ R) (hview .producer _)
  case cons => trivial
  case out =>
    intro t ht
    cases ht

/-- The producer loads its own counter. -/
theorem State.Inv.writeLoadHead (h : s.Inv ring ws R) {x : UInt64} (hpc : s.prod = .loadHead x)
    (hf : s.mem.Finds .producer .head j msg) :
    State.Inv { s with mem := s.mem.relaxedLoad .producer .head j, prod := .loadTail x msg.val } ring
      ws R := by
  have hlast := hf.eq_last h.prodLatest.1
  rw [length_of_range h.heads] at hlast
  rw [h.prodLatest.1.relaxedLoad_eq hf, (val_of_range h.heads hf.2).2, Nat.succ_injective hlast]
  exact h.gotoProd (by rw [hpc]; rfl) rfl

/-- The producer loads `tail`, perhaps an old one. -/
theorem State.Inv.writeLoadTail (h : s.Inv ring ws R) {x t : UInt64} (hpc : s.prod = .loadTail x t)
    (hf : s.mem.Finds .producer .tail j msg) :
    State.Inv { s with mem := s.mem.acquireLoad .producer .tail j msg, prod := .test x t msg.val } ring
      ws R := by
  obtain ⟨hj, hval⟩ := val_of_range h.tails hf.2
  have hprod := h.prod
  rw [hpc] at hprod
  rw [h.released.2.acquireLoad_eq hf]
  refine (h.learn .producer (h.closed.stores _ msg (List.mem_of_getElem? hf.2))).gotoProd
    (by rw [hpc]; rfl) ⟨hprod, j, hval, hj, ?_, ?_⟩
  · show j ≤ (s.mem.learn .producer msg.view).view .producer (.store .tail)
    rw [Memory.learn_view_self]
    exact (h.released.2 j msg hf.2).trans le_sup_right
  · exact h.room.trans (Nat.add_le_add_right hf.1 _)

/-- The producer finds room over the `tail` that it loaded. -/
theorem State.Inv.writeRoom (h : s.Inv ring ws R) {x t r : UInt64} (hpc : s.prod = .test x t r)
    (hne : t - r ≠ ring.capacity) : State.Inv { s with prod := .storeBuf x t } ring ws R := by
  have hprod := h.prod
  rw [hpc] at hprod
  obtain ⟨rfl, R', rfl, hR', hknown, hW⟩ := hprod
  have hcap := ring.capacity.toNat_lt
  have hsub : (UInt64.ofNat ws.length - UInt64.ofNat R').toNat = ws.length - R' :=
    toNat_sub_ofNat (hR'.trans h.le) (by omega)
  have hroom : ws.length - R' ≠ ring.capacity.toNat := fun he =>
    hne (UInt64.toNat_inj.mp (hsub.trans he))
  exact h.gotoProd (by rw [hpc]; rfl) ⟨rfl, R', hR', hknown, by omega⟩

/-- The consumer loads its own counter. -/
theorem State.Inv.readLoadTail (h : s.Inv ring ws R) (hpc : s.cons = .loadTail)
    (hf : s.mem.Finds .consumer .tail j msg) :
    State.Inv { s with mem := s.mem.relaxedLoad .consumer .tail j, cons := .loadHead msg.val } ring
      ws R := by
  have hlast := hf.eq_last h.consLatest
  rw [length_of_range h.tails] at hlast
  rw [h.consLatest.relaxedLoad_eq hf, (val_of_range h.tails hf.2).2, Nat.succ_injective hlast]
  exact h.gotoCons (by rw [hpc]; rfl) rfl fun t ht => nomatch ht

/-- The consumer loads `head`, perhaps an old one. -/
theorem State.Inv.readLoadHead (h : s.Inv ring ws R) {t : UInt64} (hpc : s.cons = .loadHead t)
    (hf : s.mem.Finds .consumer .head j msg) :
    State.Inv { s with mem := s.mem.acquireLoad .consumer .head j msg, cons := .test t msg.val } ring
      ws R := by
  obtain ⟨hj, hval⟩ := val_of_range h.heads hf.2
  have hcons := h.cons
  rw [hpc] at hcons
  rw [h.released.1.acquireLoad_eq hf]
  refine (h.learn .consumer (h.closed.stores _ msg (List.mem_of_getElem? hf.2))).gotoCons
    (by rw [hpc]; rfl) ⟨hcons, j, hval, hj, ?_, ?_⟩ fun t ht => nomatch ht
  · show j ≤ (s.mem.learn .consumer msg.view).view .consumer (.store .head)
    rw [Memory.learn_view_self]
    exact (h.released.1 j msg hf.2).trans le_sup_right
  · exact h.reached.trans hf.1

/-- The consumer finds an item before the `head` that it loaded. -/
theorem State.Inv.readSome (h : s.Inv ring ws R) {t w : UInt64} (hpc : s.cons = .test t w)
    (hne : w ≠ t) : State.Inv { s with cons := .loadBuf t } ring ws R := by
  have hcons := h.cons
  rw [hpc] at hcons
  obtain ⟨rfl, W', rfl, hW', hknown, hR⟩ := hcons
  have hlt : R ≠ W' := fun he => hne (by rw [he])
  exact h.gotoCons (by rw [hpc]; rfl) ⟨rfl, W', hW', hknown, by omega⟩ fun t ht => nomatch ht

/-- One step: a publish of the producer adds its value to those written, and a publish of the consumer
passes the value that was written at its place. -/
theorem State.Inv.step {a : Act} (h : s.Inv ring ws R) (hstep : Step ring s a s') :
    s'.Inv ring (ws ++ a.written.toList) (R + a.returned.toList.length) ∧
      ∀ x ∈ a.returned, ws[R]? = some x := by
  have hsilent : ∀ {s'}, State.Inv s' ring ws R → s'.Inv ring (ws ++ []) R ∧
      ∀ x ∈ (none : Option UInt64), ws[R]? = some x := fun h' =>
    ⟨by rwa [List.append_nil], fun x hx => nomatch hx⟩
  cases hstep with
  | writeCall hpc => exact hsilent (h.gotoProd (by rw [hpc]; rfl) trivial)
  | writeLoadHead hpc hf => exact hsilent (h.writeLoadHead hpc hf)
  | writeLoadTail hpc hf => exact hsilent (h.writeLoadTail hpc hf)
  | writeFull hpc _ => exact hsilent (h.gotoProd (by rw [hpc]; rfl) trivial)
  | writeRoom hpc hne => exact hsilent (h.writeRoom hpc hne)
  | writeStore hpc => exact hsilent (h.writeStore hpc)
  | writePublish hpc => exact ⟨h.writePublish hpc, fun x hx => nomatch hx⟩
  | readCall hpc =>
      exact hsilent (h.gotoCons (by rw [hpc]; rfl) trivial fun t ht => nomatch ht)
  | readLoadTail hpc hf => exact hsilent (h.readLoadTail hpc hf)
  | readLoadHead hpc hf => exact hsilent (h.readLoadHead hpc hf)
  | readEmpty hpc _ =>
      exact hsilent (h.gotoCons (by rw [hpc]; rfl) trivial fun t ht => nomatch ht)
  | readSome hpc hne => exact hsilent (h.readSome hpc hne)
  | readLoad hpc hf => exact hsilent (h.readLoad hpc hf)
  | readPublish hpc =>
      refine ⟨?_, fun x hx => ?_⟩
      · show State.Inv _ ring (ws ++ []) (R + 1)
        rw [List.append_nil]
        exact h.readPublish hpc
      · obtain rfl := Option.some.inj hx
        exact h.out _ hpc

theorem inv_invariant (ring : Ring) : (machine ring).Invariant fun s => ∃ ws R, s.Inv ring ws R where
  start _ h := ⟨[], 0, inv_start h⟩
  next _ _ _ _ := fun ⟨_, _, hs⟩ h => ⟨_, _, (hs.step h).1⟩

/-! ## No race -/

/-- With the memory orders of the source no access of the buffer is a race, however old the counters
are that the loads find, and each counter is stored by a thread that knows all stores to it. -/
theorem release_acquire_race_free (hs : (machine ring).Reachable s) :
    ¬ s.Racy ring ∧ s.mem.Latest .producer .head ∧ s.mem.Latest .consumer .tail := by
  obtain ⟨ws, R, h⟩ := (inv_invariant ring).reachable hs
  refine ⟨fun hracy => ?_, h.prodLatest.1, h.consLatest⟩
  cases hracy with
  | store hpc hnot => exact hnot (h.mayStore hpc)
  | load hpc hnot => exact hnot (h.mayLoad hpc).1

/-- A ring of two in which the value 7 was published, and the consumer is about to load it. -/
theorem release_acquire_race_free_two : ∃ (ring : Ring) (s : State), (machine ring).Reachable s ∧
    s.cons = .loadBuf 0 ∧ ¬ s.Racy ring ∧ s.mem.Latest .producer .head := by
  have h0 : (machine ⟨2, 1, [0, 0], 0, 0⟩).Reachable
      ⟨.init (contents ⟨2, 1, [0, 0], 0, 0⟩), 0, .idle, .idle⟩ :=
    .init ⟨⟨fun _ => some [0, 0], 2, by decide⟩, rfl, rfl, rfl, rfl⟩
  have h1 := h0.step (Step.writeCall (v := 7) rfl)
  have h2 := h1.step (Step.writeLoadHead (j := 0) rfl ⟨le_rfl, rfl⟩)
  have h3 := h2.step (Step.writeLoadTail (j := 0) rfl ⟨by decide, rfl⟩)
  have h4 := h3.step (Step.writeRoom rfl (by decide))
  have h5 := h4.step (Step.writeStore rfl)
  have h6 := h5.step (Step.writePublish rfl)
  have h7 := h6.step (Step.readCall rfl)
  have h8 := h7.step (Step.readLoadTail (j := 0) rfl ⟨by decide, rfl⟩)
  have h9 := h8.step (Step.readLoadHead (j := 1) rfl ⟨by decide, rfl⟩)
  have h10 := h9.step (Step.readSome rfl (by decide))
  have key := release_acquire_race_free h10
  exact ⟨_, _, h10, rfl, key.1, key.2.1⟩

/-! ## First in, first out -/

/-- The invariant along a run. -/
theorem inv_run {n : Nat} (r : Run (machine ring) n) :
    ∀ {k : Nat}, k ≤ n →
      (r.st k).Inv ring (r.seen Act.written k) (r.seen Act.returned k).length ∧
        r.seen Act.returned k <+: r.seen Act.written k := by
  intro k hk
  induction k with
  | zero => exact ⟨inv_start r.start, List.prefix_rfl⟩
  | succ k ih =>
      obtain ⟨hinv, hfirst⟩ := ih (by omega)
      obtain ⟨hnext, hret⟩ := hinv.step (r.next k (by omega))
      rw [r.seen_succ, r.seen_succ, List.length_append]
      refine ⟨hnext, ?_⟩
      cases hr : (r.act k).returned with
      | none =>
          rw [Option.toList_none, List.append_nil]
          exact hfirst.trans (List.prefix_append _ _)
      | some x => exact (prefix_concat hfirst (hret x hr)).trans (List.prefix_append _ _)

/-- In every run the values that came out are the first of those that went in, in their order, and at
most `capacity` of them are still to come. -/
theorem release_acquire_fifo {n k : Nat} (r : Run (machine ring) n) (hk : k ≤ n) :
    r.seen Act.returned k <+: r.seen Act.written k ∧
      (r.seen Act.written k).length ≤
        (r.seen Act.returned k).length + ring.capacity.toNat := by
  obtain ⟨hinv, hfirst⟩ := inv_run r hk
  exact ⟨hfirst, hinv.fits⟩

/-- After 7 was published the consumer may still load the old `head` and find the ring empty.  Its next
call returns the 7. -/
theorem release_acquire_fifo_stale : ∃ (ring : Ring) (n : Nat) (r : Run (machine ring) n),
    r.seen Act.written n = [7] ∧ r.seen Act.returned n = [7] ∧
      (∃ i j, i < j ∧ j < n ∧ r.act i = .writeTrue 7 ∧ r.act j = .readFalse) ∧
      r.seen Act.returned n <+: r.seen Act.written n := by
  have hinit : (machine ⟨2, 1, [0, 0], 0, 0⟩).init
      ⟨.init (contents ⟨2, 1, [0, 0], 0, 0⟩), 0, .idle, .idle⟩ :=
    ⟨⟨fun _ => some [0, 0], 2, by decide⟩, rfl, rfl, rfl, rfl⟩
  have hexec : (machine ⟨2, 1, [0, 0], 0, 0⟩).Exec
      ⟨.init (contents ⟨2, 1, [0, 0], 0, 0⟩), 0, .idle, .idle⟩
      [.writeCall 7, .writeStep, .writeStep, .writeStep, .writeStep, .writeTrue 7,
        .readCall, .readStep, .readStep, .readFalse,
        .readCall, .readStep, .readStep, .readStep, .readStep, .readTrue 7] _ :=
    .cons (.writeCall rfl) <|
    .cons (.writeLoadHead (j := 0) rfl ⟨le_rfl, rfl⟩) <|
    .cons (.writeLoadTail (j := 0) rfl ⟨by decide, rfl⟩) <|
    .cons (.writeRoom rfl (by decide)) <|
    .cons (.writeStore rfl) <|
    .cons (.writePublish rfl) <|
    .cons (.readCall rfl) <|
    .cons (.readLoadTail (j := 0) rfl ⟨by decide, rfl⟩) <|
    .cons (.readLoadHead (j := 0) rfl ⟨by decide, rfl⟩) <|
    .cons (.readEmpty rfl (by decide)) <|
    .cons (.readCall rfl) <|
    .cons (.readLoadTail (j := 0) rfl ⟨by decide, rfl⟩) <|
    .cons (.readLoadHead (j := 1) rfl ⟨by decide, rfl⟩) <|
    .cons (.readSome rfl (by decide)) <|
    .cons (.readLoad (j := 1) rfl ⟨by decide, rfl⟩) <|
    .cons (.readPublish rfl) .nil
  obtain ⟨r, -, -, hact⟩ := hexec.exists_run hinit
  refine ⟨_, _, r, Run.seen_of_map_act _ hact, Run.seen_of_map_act _ hact,
    ⟨5, 9, by decide, by decide, Run.act_of_map_act hact rfl, Run.act_of_map_act hact rfl⟩, ?_⟩
  exact (release_acquire_fifo r le_rfl).1

end ReleaseAcquire

end Spsc
