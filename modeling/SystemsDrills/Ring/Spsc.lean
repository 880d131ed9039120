import SystemsDrills.Lib.Transition
import SystemsDrills.Lib.Cyclic

/-!
# The single-producer single-consumer ring

`init_ring`, `ring_write` and `ring_read` of `SPSC_Ring_buffer/rb.c`, run by one
producer and one consumer without a lock.  `head` and `tail` are free-running
64-bit counters, and the slot of a counter is the counter masked with
`capacity - 1`.

Each load and store of `head` and `tail`, the store into the buffer and the load
from it are steps of their own, so each side works from a snapshot of the
other's counter that may be stale by the time it is tested.  The test itself
reads only locals.  A call that succeeds ends with its store to `head` or
`tail`.

The counters wrap.  The invariant `Counts` names the natural numbers they are
the images of: how many values were written and how many were read.
-/

namespace Spsc

open Transition Cyclic

/-! ## The ring -/

/-- `struct Ring`. -/
structure Ring where
  capacity : UInt64
  mask : UInt64
  buf : List UInt64
  head : UInt64
  tail : UInt64
deriving DecidableEq, Repr

/-- `init_ring`.  `malloc` is given a number of bytes, and its block is taken as
the list of the 8-byte slots it holds. -/
def initRing (malloc : UInt64 → Option (List UInt64)) (capacity : UInt64) : Option Ring :=
  if capacity = 0 ∨ capacity &&& (capacity - 1) ≠ 0 then
    none
  else
    match malloc (capacity * 8) with
    | none => none
    | some buf => some ⟨capacity, capacity - 1, buf, 0, 0⟩

/-- `index & mask`. -/
def Ring.slot (ring : Ring) (index : UInt64) : Nat := (index &&& ring.mask).toNat

/-- The ring after `buf[index & mask] = value`. -/
@[simps] def Ring.put (ring : Ring) (index value : UInt64) : Ring :=
  { ring with buf := ring.buf.set (ring.slot index) value }

/-- `buf[index & mask]` may yield `value`.  A load outside the buffer may yield
anything. -/
def Ring.Yields (ring : Ring) (index value : UInt64) : Prop :=
  ∀ x ∈ ring.buf[ring.slot index]?, value = x

/-- The ring after a store to `head`. -/
@[simps] def Ring.setHead (ring : Ring) (h : UInt64) : Ring := { ring with head := h }

/-- The ring after a store to `tail`. -/
@[simps] def Ring.setTail (ring : Ring) (t : UInt64) : Ring := { ring with tail := t }

/-! ## The machine -/

/-- Where the producer is, with the locals of `ring_write`. -/
inductive ProdPc where
  | idle
  | loadHead (value : UInt64)
  | loadTail (value head : UInt64)
  | test (value head tail : UInt64)
  | storeBuf (value head : UInt64)
  | storeHead (value head : UInt64)
deriving DecidableEq, Repr

/-- Where the consumer is, with the locals of `ring_read`. -/
inductive ConsPc where
  | idle
  | loadTail
  | loadHead (tail : UInt64)
  | test (tail head : UInt64)
  | loadBuf (tail : UInt64)
  | storeTail (tail : UInt64)
deriving DecidableEq, Repr

/-- The ring, the consumer's `*out` and the places of the two threads. -/
structure State where
  ring : Ring
  out : UInt64
  prod : ProdPc
  cons : ConsPc
deriving DecidableEq, Repr

/-- The labels tell apart the start of a call, its return with the value that
went in or came out, and the steps in between. -/
inductive Act where
  | writeCall (value : UInt64)
  | writeStep
  | writeFalse
  | writeTrue (value : UInt64)
  | readCall
  | readStep
  | readFalse
  | readTrue (value : UInt64)
deriving DecidableEq, Repr

instance : Inhabited Act := ⟨.readCall⟩

inductive Step : State → Act → State → Prop where
  | writeCall :
      s.prod = .idle →
      Step s (.writeCall v) { s with prod := .loadHead v }
  | writeLoadHead :
      s.prod = .loadHead v →
      Step s .writeStep { s with prod := .loadTail v s.ring.head }
  | writeLoadTail :
      s.prod = .loadTail v h →
      Step s .writeStep { s with prod := .test v h s.ring.tail }
  | writeFull :
      s.prod = .test v h t → h - t = s.ring.capacity →
      Step s .writeFalse { s with prod := .idle }
  | writeRoom :
      s.prod = .test v h t → h - t ≠ s.ring.capacity →
      Step s .writeStep { s with prod := .storeBuf v h }
  | writeStore :
      s.prod = .storeBuf v h →
      Step s .writeStep { s with ring := s.ring.put h v, prod := .storeHead v h }
  | writePublish :
      s.prod = .storeHead v h →
      Step s (.writeTrue v) { s with ring := s.ring.setHead (h + 1), prod := .idle }
  | readCall :
      s.cons = .idle →
      Step s .readCall { s with cons := .loadTail }
  | readLoadTail :
      s.cons = .loadTail →
      Step s .readStep { s with cons := .loadHead s.ring.tail }
  | readLoadHead :
      s.cons = .loadHead t →
      Step s .readStep { s with cons := .test t s.ring.head }
  | readEmpty :
      s.cons = .test t h → h = t →
      Step s .readFalse { s with cons := .idle }
  | readSome :
      s.cons = .test t h → h ≠ t →
      Step s .readStep { s with cons := .loadBuf t }
  | readLoad :
      s.cons = .loadBuf t → s.ring.Yields t v →
      Step s .readStep { s with out := v, cons := .storeTail t }
  | readPublish :
      s.cons = .storeTail t →
      Step s (.readTrue s.out) { s with ring := s.ring.setTail (t + 1), cons := .idle }

/-- One producer and one consumer on a ring that `init_ring` returned. -/
def machine : System State Act where
  init s := (∃ malloc capacity, initRing malloc capacity = some s.ring) ∧
    s.prod = .idle ∧ s.cons = .idle
  step := Step

/-- The value a step published. -/
def Act.written : Act → Option UInt64
  | .writeTrue v => some v
  | _ => none

/-- The value a step returned to the consumer. -/
def Act.returned : Act → Option UInt64
  | .readTrue v => some v
  | _ => none

/-! ## The counters -/

/-- A ring as `init_ring` shapes it. -/
structure Ring.Shaped (ring : Ring) : Prop where
  two_pow : ∃ k, ring.capacity.toNat = 2 ^ k
  mask : ring.mask = ring.capacity - 1

theorem initRing_eq_some {malloc : UInt64 → Option (List UInt64)} {capacity : UInt64}
    {ring : Ring} (h : initRing malloc capacity = some ring) :
    ring.Shaped ∧ ring.capacity = capacity ∧ malloc (capacity * 8) = some ring.buf ∧
      ring.head = 0 ∧ ring.tail = 0 := by
  unfold initRing at h
  split at h
  · cases h
  · rename_i hc
    push Not at hc
    cases hm : malloc (capacity * 8) with
    | none => simp [hm] at h
    | some buf =>
        simp only [hm, Option.some.injEq] at h
        subst h
        exact ⟨⟨exists_two_pow hc.1 hc.2, rfl⟩, rfl, rfl, rfl, rfl⟩

theorem Ring.Shaped.slot_ofNat {ring : Ring} (h : ring.Shaped) (i : Nat) :
    ring.slot (UInt64.ofNat i) = i % ring.capacity.toNat := by
  obtain ⟨k, hk⟩ := h.two_pow
  rw [slot, h.mask, toNat_ofNat_and hk]

/-- What the producer's locals say when `W` values were written and `R` were
read.  Its `tail` may be old, but `W` values fit over it. -/
def ProdPc.Fits (ring : Ring) (W R : Nat) : ProdPc → Prop
  | .idle | .loadHead _ => True
  | .loadTail _ h => h = ring.head
  | .test _ h t => h = ring.head ∧ ∃ R', t = UInt64.ofNat R' ∧ R' ≤ R ∧ W ≤ R' + ring.capacity.toNat
  | .storeBuf _ h | .storeHead _ h => h = ring.head ∧ W < R + ring.capacity.toNat

/-- What the consumer's locals say.  Its `head` may be old, but it is not behind
`tail`. -/
def ConsPc.Fits (ring : Ring) (W R : Nat) : ConsPc → Prop
  | .idle | .loadTail => True
  | .loadHead t => t = ring.tail
  | .test t h => t = ring.tail ∧ ∃ W', h = UInt64.ofNat W' ∧ R ≤ W' ∧ W' ≤ W
  | .loadBuf t | .storeTail t => t = ring.tail ∧ R < W

/-- `W` values were written and `R` were read. -/
structure State.Counts (s : State) (W R : Nat) : Prop where
  shaped : s.ring.Shaped
  head : s.ring.head = UInt64.ofNat W
  tail : s.ring.tail = UInt64.ofNat R
  le : R ≤ W
  fits : W ≤ R + s.ring.capacity.toNat
  prod : s.prod.Fits s.ring W R
  cons : s.cons.Fits s.ring W R

/-- The number of values in the ring is `head - tail`, across the wrap. -/
theorem State.Counts.occupancy {s : State} {W R : Nat} (h : s.Counts W R) :
    (s.ring.head - s.ring.tail).toNat = W - R := by
  have := s.ring.capacity.toNat_lt
  rw [h.head, h.tail, toNat_sub_ofNat h.le (by have := h.fits; omega)]

theorem counts_start {s : State} (h : machine.init s) : s.Counts 0 0 := by
  obtain ⟨⟨malloc, capacity, hring⟩, hprod, hcons⟩ := h
  obtain ⟨hshaped, -, -, hh, ht⟩ := initRing_eq_some hring
  exact ⟨hshaped, hh, ht, le_rfl, Nat.zero_le _, by rw [hprod]; trivial, by rw [hcons]; trivial⟩

/-- The consumer's step past `tail` gives the producer only more room. -/
theorem ProdPc.Fits.read {ring : Ring} {W R : Nat} {p : ProdPc} (h : p.Fits ring W R)
    (t : UInt64) : p.Fits (ring.setTail t) W (R + 1) := by
  cases p with
  | idle => trivial
  | loadHead v => trivial
  | loadTail v h' => exact h
  | test v h' t' =>
      obtain ⟨hh, R', ht, hle, hW⟩ := h
      exact ⟨hh, R', ht, hle.trans (Nat.le_succ R), hW⟩
  | storeBuf v h' | storeHead v h' =>
      obtain ⟨hh, hW⟩ := h
      exact ⟨hh, hW.trans_le (by simp only [Ring.setTail_capacity]; omega)⟩

/-- The producer's step past `head` gives the consumer only more to read. -/
theorem ConsPc.Fits.write {ring : Ring} {W R : Nat} {c : ConsPc} (h : c.Fits ring W R)
    (h' : UInt64) : c.Fits (ring.setHead h') (W + 1) R := by
  cases c with
  | idle => trivial
  | loadTail => trivial
  | loadHead t => exact h
  | test t h' =>
      obtain ⟨ht, W', hh, hle, hW⟩ := h
      exact ⟨ht, W', hh, hle, hW.trans (Nat.le_succ W)⟩
  | loadBuf t | storeTail t =>
      obtain ⟨ht, hR⟩ := h
      exact ⟨ht, hR.trans (Nat.lt_succ_self W)⟩

/-- One step: a publish of the producer adds one to the values written, a
publish of the consumer one to the values read. -/
theorem State.Counts.step {s s' : State} {a : Act} {W R : Nat} (hs : s.Counts W R)
    (h : Step s a s') :
    s'.Counts (W + a.written.toList.length) (R + a.returned.toList.length) := by
  have hcap := s.ring.capacity.toNat_lt
  obtain ⟨hshaped, hhead, htail, hle, hfits, hprod, hcons⟩ := hs
  cases h with
  | writeCall hpc => exact ⟨hshaped, hhead, htail, hle, hfits, trivial, hcons⟩
  | writeLoadHead hpc => exact ⟨hshaped, hhead, htail, hle, hfits, rfl, hcons⟩
  | writeLoadTail hpc =>
      rw [hpc] at hprod
      exact ⟨hshaped, hhead, htail, hle, hfits, ⟨hprod, R, htail, le_rfl, hfits⟩, hcons⟩
  | writeFull hpc _ => exact ⟨hshaped, hhead, htail, hle, hfits, trivial, hcons⟩
  | writeRoom hpc hne =>
      rw [hpc] at hprod
      obtain ⟨rfl, R', rfl, hR', hW⟩ := hprod
      refine ⟨hshaped, hhead, htail, hle, hfits, ⟨rfl, ?_⟩, hcons⟩
      -- The stale `tail` is behind the true one, so the room it shows is there.
      have hsub : (s.ring.head - UInt64.ofNat R').toNat = W - R' := by
        rw [hhead, toNat_sub_ofNat (hR'.trans hle) (by omega)]
      have : W - R' ≠ s.ring.capacity.toNat := fun he => hne (UInt64.toNat_inj.mp (hsub.trans he))
      show W < R + s.ring.capacity.toNat
      omega
  | writeStore hpc =>
      rw [hpc] at hprod
      refine ⟨⟨hshaped.two_pow, hshaped.mask⟩, hhead, htail, hle, hfits, hprod, ?_⟩
      show s.cons.Fits _ W R
      cases hc : s.cons <;> rw [hc] at hcons <;> exact hcons
  | writePublish hpc =>
      rw [hpc] at hprod
      obtain ⟨rfl, hW⟩ := hprod
      refine ⟨⟨hshaped.two_pow, hshaped.mask⟩, ?_, htail, Nat.le_succ_of_le hle, hW, trivial,
        hcons.write _⟩
      show s.ring.head + 1 = UInt64.ofNat (W + 1)
      rw [hhead, ofNat_succ]
  | readCall hpc => exact ⟨hshaped, hhead, htail, hle, hfits, hprod, trivial⟩
  | readLoadTail hpc => exact ⟨hshaped, hhead, htail, hle, hfits, hprod, rfl⟩
  | readLoadHead hpc =>
      rw [hpc] at hcons
      exact ⟨hshaped, hhead, htail, hle, hfits, hprod, hcons, W, hhead, hle, le_rfl⟩
  | readEmpty hpc _ => exact ⟨hshaped, hhead, htail, hle, hfits, hprod, trivial⟩
  | readSome hpc hne =>
      rw [hpc] at hcons
      obtain ⟨rfl, W', rfl, hW', hle'⟩ := hcons
      refine ⟨hshaped, hhead, htail, hle, hfits, hprod, rfl, ?_⟩
      have : R ≠ W' := fun he => hne (by rw [htail, he])
      show R < W
      omega
  | readLoad hpc _ =>
      rw [hpc] at hcons
      exact ⟨hshaped, hhead, htail, hle, hfits, hprod, hcons⟩
  | readPublish hpc =>
      rw [hpc] at hcons
      obtain ⟨rfl, hR⟩ := hcons
      refine ⟨⟨hshaped.two_pow, hshaped.mask⟩, hhead, ?_, hR, ?_, hprod.read _, trivial⟩
      · show s.ring.tail + 1 = UInt64.ofNat (R + 1)
        rw [htail, ofNat_succ]
      · show W ≤ R + 1 + s.ring.capacity.toNat
        omega

theorem counts_invariant : machine.Invariant fun s => ∃ W R, s.Counts W R where
  start _ h := ⟨0, 0, counts_start h⟩
  next _ _ _ _ := fun ⟨_, _, hs⟩ h => ⟨_, _, hs.step h⟩

/-! ## Slot exclusivity -/

/-- In every reachable state the counters are at most `capacity` apart modulo
`2 ^ 64`, and a producer about to store into the buffer and a consumer about to
load from it are at different slots. -/
theorem slots_exclusive {s : State} (hs : machine.Reachable s) :
    (s.ring.head - s.ring.tail).toNat ≤ s.ring.capacity.toNat ∧
    ∀ v h t, s.prod = .storeBuf v h → s.cons = .loadBuf t →
      h &&& s.ring.mask ≠ t &&& s.ring.mask := by
  obtain ⟨W, R, hc⟩ := counts_invariant.reachable hs
  refine ⟨?_, ?_⟩
  · rw [hc.occupancy]
    have := hc.fits
    omega
  · intro v h t hprod hcons heq
    have hp := hc.prod
    have hr := hc.cons
    rw [hprod] at hp
    rw [hcons] at hr
    obtain ⟨rfl, hW⟩ := hp
    obtain ⟨rfl, hR⟩ := hr
    have hslot : s.ring.slot s.ring.head = s.ring.slot s.ring.tail := congrArg UInt64.toNat heq
    rw [hc.head, hc.tail, hc.shaped.slot_ofNat, hc.shaped.slot_ofNat] at hslot
    exact mod_ne hR hW hslot.symm

/-- With one value in a ring of two, the producer is about to store into slot 1
while the consumer is about to load slot 0. -/
theorem slots_exclusive_two :
    ∃ s : State, machine.Reachable s ∧ s.prod = .storeBuf 8 1 ∧ s.cons = .loadBuf 0 ∧
      (s.ring.head - s.ring.tail).toNat ≤ 2 ∧ (1 : UInt64) &&& s.ring.mask ≠ 0 &&& s.ring.mask := by
  have h0 : machine.Reachable ⟨⟨2, 1, [0, 0], 0, 0⟩, 0, .idle, .idle⟩ :=
    .init ⟨⟨fun _ => some [0, 0], 2, by decide⟩, rfl, rfl⟩
  have h1 := h0.step (Step.writeCall (v := 7) rfl)
  have h2 := h1.step (Step.writeLoadHead rfl)
  have h3 := h2.step (Step.writeLoadTail rfl)
  have h4 := h3.step (Step.writeRoom rfl (by decide))
  have h5 := h4.step (Step.writeStore rfl)
  have h6 := h5.step (Step.writePublish rfl)
  -- Both threads now run up to their access of the buffer.
  have h7 := h6.step (Step.writeCall (v := 8) rfl)
  have h8 := h7.step (Step.writeLoadHead rfl)
  have h9 := h8.step (Step.writeLoadTail rfl)
  have h10 := h9.step (Step.writeRoom rfl (by decide))
  have h11 := h10.step (Step.readCall rfl)
  have h12 := h11.step (Step.readLoadTail rfl)
  have h13 := h12.step (Step.readLoadHead rfl)
  have h14 := h13.step (Step.readSome rfl (by decide))
  have key := slots_exclusive h14
  exact ⟨_, h14, rfl, rfl, key.1, key.2 _ _ _ rfl rfl⟩

end Spsc
