import SystemsDrills.Queue.BoundedBuffer
import SystemsDrills.Queue.LockRing
import SystemsDrills.Ring.Capacity

/-!
# Setting up the queues

`init_ring` of `rb.c` and `rb_lock.c` asks `malloc` for `capacity * 8` bytes and `bq_init` for
`cap * 4`.  The products are taken modulo `2 ^ 64` and neither is checked, while the slots are
found from the capacity itself.  Where the product does not wrap, every slot is inside of the
block, whatever the threads do.  Where it does, the block is too small: `malloc` may even be asked
for no bytes at all, and then succeeds.
-/

namespace Queues

open Transition Spsc

/-! ## The code -/

/-- One producer and one consumer on a given ring of `rb.c`. -/
def spscOn (ring : Ring) : System State Act where
  init s := s.ring = ring ∧ s.prod = .idle ∧ s.cons = .idle
  step := Step

/-- `bq_init` with the results of `pthread_mutex_init` and of the two `pthread_cond_init`.  When one
of them fails, what succeeded is undone and the queue must not be used. -/
def bqInitAll (malloc : UInt64 → Option (List Int32)) (mutex cond_not_empty cond_not_full : Bool)
    (cap : UInt64) : Option BoundedBuffer.Bq := do
  let q ← BoundedBuffer.bqInit malloc cap
  if !mutex then
    none
  else if !cond_not_empty then
    none
  else if !cond_not_full then
    none
  else
    return q

/-! ## What a set-up has to ensure -/

/-- `malloc` succeeds for any number of bytes below `2 ^ 47`. -/
def Grants {β : Type} (malloc : UInt64 → Option (List β)) : Prop :=
  ∀ bytes, bytes.toNat < 2 ^ 47 → (malloc bytes).isSome

/-- Element `i` of `size` bytes is inside of a block of so many bytes. -/
def Inside (bytes : UInt64) (size i : Nat) : Prop := (i + 1) * size ≤ bytes.toNat

/-- Whenever `init_ring` succeeds, it asked for as many bytes as there are slots of 8 bytes, and no
run of `ring_write` and `ring_read` uses a slot outside of the block, in `rb.c` or in
`rb_lock.c`. -/
def RingFits (capacity : UInt64) : Prop :=
  ∀ malloc, Grants malloc → ∀ ring, initRing malloc capacity = some ring →
    (capacity * 8).toNat = capacity.toNat * 8 ∧
    (∀ s, (spscOn ring).Reachable s →
      (∀ v h, s.prod = .storeBuf v h → Inside (capacity * 8) 8 (s.ring.slot h)) ∧
      ∀ t, s.cons = .loadBuf t → Inside (capacity * 8) 8 (s.ring.slot t)) ∧
    ∀ (T : Type) [DecidableEq T], ∀ s,
      (Monitor.machine (T := T) LockRing.operations ring).Reachable s →
      Inside (capacity * 8) 8 (s.data.slot s.data.head) ∧
        Inside (capacity * 8) 8 (s.data.slot s.data.tail)

/-- The same for `bq_init`, `bq_put` and `bq_get`, with slots of 4 bytes. -/
def BqFits (cap : UInt64) : Prop :=
  ∀ malloc, Grants malloc → ∀ mutex cond_not_empty cond_not_full q,
    bqInitAll malloc mutex cond_not_empty cond_not_full cap = some q →
    (cap * 4).toNat = cap.toNat * 4 ∧
    ∀ (T : Type) [DecidableEq T], ∀ s,
      (Monitor.machine (T := T) BoundedBuffer.operations q).Reachable s →
      Inside (cap * 4) 4 s.data.head.toNat ∧ Inside (cap * 4) 4 s.data.tail.toNat

/-! ## The rings -/

variable {capacity cap : UInt64} {ring : Ring}

theorem spsc_mask {s : State} (hs : (spscOn ring).Reachable s) : s.ring.mask = ring.mask := by
  have hinv : (spscOn ring).Invariant fun s => s.ring.mask = ring.mask := by
    refine ⟨fun s h => congrArg Ring.mask h.1, fun s a s' _ hs h => ?_⟩
    cases h <;> exact hs
  exact hinv.reachable hs

/-- No update of a section changes the mask. -/
theorem mask_of_mem_body {op : LockRing.Op} {f : Ring × Option UInt64 → Ring × Option UInt64}
    (hf : f ∈ LockRing.operations.body op) (d : Ring) (r : Option UInt64) :
    (f (d, r)).1.mask = d.mask := by
  have hwrite : ∀ v, f ∈ LockRing.writeBody v → (f (d, r)).1.mask = d.mask := by
    intro v hf
    rcases List.mem_pair.mp hf with rfl | rfl
    · rfl
    · rfl
  have hread : f ∈ LockRing.readBody → (f (d, r)).1.mask = d.mask := by
    intro hf
    rcases List.mem_pair.mp hf with rfl | rfl
    · rfl
    · rfl
  cases op with
  | tryWrite v => exact hwrite v hf
  | tryRead => exact hread hf
  | write v => exact hwrite v hf
  | read => exact hread hf

theorem lockRing_mask {T : Type} [DecidableEq T]
    {s : Monitor.State T Ring LockRing.Op UInt64}
    (hs : (Monitor.machine LockRing.operations ring).Reachable s) : s.data.mask = ring.mask := by
  have hinv := Monitor.data_invariant (T := T) (M := LockRing.operations)
    (P := fun d => d.mask = ring.mask) rfl fun op f hf d r hd => (mask_of_mem_body hf d r).trans hd
  exact (hinv.reachable hs).1

/-- A slot is below the capacity, whatever the counter. -/
theorem slot_lt {ring' : Ring} (hmask : ring'.mask = capacity - 1) (hpos : 0 < capacity.toNat)
    (index : UInt64) : ring'.slot index < capacity.toNat := by
  have hle : (1 : UInt64) ≤ capacity := UInt64.le_iff_toNat_le.mpr hpos
  have hand : (index &&& ring'.mask).toNat ≤ (capacity - 1).toNat := by
    rw [hmask, UInt64.toNat_and]
    exact Nat.and_le_right
  rw [UInt64.toNat_sub_of_le _ _ hle, UInt64.toNat_one] at hand
  rw [Ring.slot]
  omega

theorem inside_of_lt {bytes : UInt64} {size i n : Nat} (hbytes : bytes.toNat = n * size)
    (hi : i < n) : Inside bytes size i := by
  rw [Inside, hbytes]
  exact Nat.mul_le_mul_right size hi

/-- The set-up is right exactly if the product does not wrap. -/
theorem ringFits_iff (capacity : UInt64) :
    RingFits capacity ↔ refused capacity ∨ capacity.toNat < 2 ^ 61 := by
  constructor
  · intro hfits
    by_contra hnot
    obtain ⟨hacc, hlarge⟩ := not_or.mp hnot
    have hinit := initRing_of_not_refused hacc (fun _ => some []) rfl
    have hbytes := (hfits (fun _ => some []) (fun _ _ => rfl) _ hinit).1
    have := (capacity * 8).toNat_lt
    omega
  · rintro (href | hsmall) malloc - ring hinit
    · rw [initRing_of_refused href] at hinit
      cases hinit
    · obtain ⟨hshaped, hcap, -⟩ := initRing_eq_some hinit
      have hpos : 0 < capacity.toNat := by
        obtain ⟨k, hk⟩ := hshaped.two_pow
        rw [← hcap, hk]
        exact Nat.two_pow_pos k
      have hmask : ring.mask = capacity - 1 := hcap ▸ hshaped.mask
      have hbytes : (capacity * 8).toNat = capacity.toNat * 8 := by
        rw [UInt64.toNat_mul]
        exact Nat.mod_eq_of_lt (show capacity.toNat * 8 < 2 ^ 64 by omega)
      have hslot : ∀ {ring' : Ring}, ring'.mask = ring.mask → ∀ index,
          Inside (capacity * 8) 8 (ring'.slot index) := fun hsame index =>
        inside_of_lt hbytes (slot_lt (hsame.trans hmask) hpos index)
      refine ⟨hbytes, fun s hs => ⟨fun v h _ => ?_, fun t _ => ?_⟩, fun T _ s hs => ⟨?_, ?_⟩⟩
      · exact hslot (spsc_mask hs) h
      · exact hslot (spsc_mask hs) t
      · exact hslot (lockRing_mask hs) _
      · exact hslot (lockRing_mask hs) _

theorem nextPow2_lt_iff {c : UInt64} (hfits : c.toNat ≤ 2 ^ 63) :
    (nextPow2 c).toNat < 2 ^ 61 ↔ c.toNat ≤ 2 ^ 60 := by
  obtain ⟨⟨⟨k, hk⟩, hle⟩, hleast⟩ := isLeast_nextPow2 hfits
  constructor
  · intro hlt
    rw [hk] at hlt hle
    have hk60 : k ≤ 60 := Nat.le_of_lt_succ ((Nat.pow_lt_pow_iff_right Nat.one_lt_two).mp hlt)
    exact hle.trans (Nat.pow_le_pow_right Nat.zero_lt_two hk60)
  · intro hc
    have := hleast ⟨⟨60, rfl⟩, hc⟩
    omega

/-- The capacities that `main` asks for are right up to the argument `2 ^ 60`. -/
theorem ringFits_mainCapacity_iff {arg : Option Int64}
    (h : mainCapacity arg = some capacity) : RingFits capacity ↔ ∀ c ∈ arg, c.toInt ≤ 2 ^ 60 := by
  rw [ringFits_iff]
  cases arg with
  | none =>
      cases h
      exact ⟨fun _ => nofun, fun _ => .inr (by decide)⟩
  | some c =>
      rw [mainCapacity] at h
      split at h
      · cases h
      · next hpos =>
          cases h
          have hnonneg : 0 ≤ c := Int64.le_of_lt (Int64.not_le.mp hpos)
          have hc : c.toUInt64.toNat = c.toInt.toNat := by
            rw [Int64.toNat_toUInt64_of_le hnonneg, Int64.toNat_toInt]
          have htop := c.toInt_lt
          have hfits : c.toUInt64.toNat ≤ 2 ^ 63 := by omega
          have hacc : ¬ refused (nextPow2 c.toUInt64) :=
            not_refused_iff.mpr (isLeast_nextPow2 hfits).1.1
          rw [or_iff_right hacc, nextPow2_lt_iff hfits, hc]
          simp only [Option.mem_some_iff, forall_eq']
          omega

/-! ## The bounded buffer -/

/-- The slots of the queue are below its capacity. -/
structure Bounded (cap : UInt64) (q : BoundedBuffer.Bq) : Prop where
  cap_eq : q.cap = cap
  head : q.head.toNat < cap.toNat
  tail : q.tail.toNat < cap.toNat

theorem Bounded.update {op : BoundedBuffer.Op}
    {f : BoundedBuffer.Bq × Option Int32 → BoundedBuffer.Bq × Option Int32}
    (hf : f ∈ BoundedBuffer.operations.body op) (q : BoundedBuffer.Bq) (r : Option Int32)
    (h : Bounded cap q) : Bounded cap (f (q, r)).1 := by
  have hnext : ∀ i : UInt64, ((i + 1) % q.cap).toNat < cap.toNat := by
    intro i
    rw [h.cap_eq, UInt64.toNat_mod]
    exact Nat.mod_lt _ (Nat.zero_lt_of_lt h.head)
  cases op with
  | put v =>
      simp only [BoundedBuffer.operations, List.mem_cons, List.not_mem_nil, or_false] at hf
      rcases hf with rfl | rfl | rfl
      · exact ⟨h.cap_eq, h.head, h.tail⟩
      · exact ⟨h.cap_eq, hnext q.head, h.tail⟩
      · exact ⟨h.cap_eq, h.head, h.tail⟩
  | get =>
      simp only [BoundedBuffer.operations, List.mem_cons, List.not_mem_nil, or_false] at hf
      rcases hf with rfl | rfl | rfl
      · exact h
      · exact ⟨h.cap_eq, h.head, hnext q.tail⟩
      · exact ⟨h.cap_eq, h.head, h.tail⟩

theorem bqInit_of_bqInitAll {malloc : UInt64 → Option (List Int32)}
    {mutex cond_not_empty cond_not_full : Bool} {q : BoundedBuffer.Bq}
    (h : bqInitAll malloc mutex cond_not_empty cond_not_full cap = some q) :
    BoundedBuffer.bqInit malloc cap = some q := by
  obtain ⟨q', hinit, h⟩ := Option.bind_eq_some_iff.mp h
  split_ifs at h
  cases h
  exact hinit

theorem bqFits_iff (cap : UInt64) : BqFits cap ↔ cap.toNat < 2 ^ 62 := by
  constructor
  · intro hfits
    by_contra hlarge
    have hne : cap ≠ 0 := by
      rintro rfl
      exact hlarge (by decide)
    have hinit : bqInitAll (fun _ => some []) true true true cap = some ⟨[], 0, 0, 0, cap⟩ := by
      simp [bqInitAll, BoundedBuffer.bqInit, hne]
    have hbytes := (hfits (fun _ => some []) (fun _ _ => rfl) true true true _ hinit).1
    have := (cap * 4).toNat_lt
    omega
  · intro hsmall malloc _ mutex cond_not_empty cond_not_full q hinit
    obtain ⟨hpos, -, hq⟩ := BoundedBuffer.bqInit_eq_some (bqInit_of_bqInitAll hinit)
    have hbytes : (cap * 4).toNat = cap.toNat * 4 := by
      rw [UInt64.toNat_mul]
      exact Nat.mod_eq_of_lt (show cap.toNat * 4 < 2 ^ 64 by omega)
    have hstart : Bounded cap q := by
      rw [hq]
      exact ⟨rfl, hpos, hpos⟩
    refine ⟨hbytes, fun T _ s hs => ?_⟩
    have hinv := Monitor.data_invariant (T := T) (M := BoundedBuffer.operations)
      (P := Bounded cap) hstart fun op f hf d r => Bounded.update hf d r
    obtain ⟨hbounded, -⟩ := hinv.reachable hs
    exact ⟨inside_of_lt hbytes hbounded.head, inside_of_lt hbytes hbounded.tail⟩

/-! ## All queues -/

/-- The set-up of a ring is right exactly if `init_ring` refuses the capacity or it is below
`2 ^ 61`, and so for a capacity of `main` exactly if the argument is at most `2 ^ 60`.  The set-up
of a bounded buffer is right exactly if the capacity is below `2 ^ 62`. -/
theorem queue_setup_iff (capacity cap : UInt64) :
    (RingFits capacity ↔ refused capacity ∨ capacity.toNat < 2 ^ 61) ∧
    (∀ arg, mainCapacity arg = some capacity →
      (RingFits capacity ↔ ∀ c ∈ arg, c.toInt ≤ 2 ^ 60)) ∧
    (BqFits cap ↔ cap.toNat < 2 ^ 62) :=
  ⟨ringFits_iff capacity, fun _ => ringFits_mainCapacity_iff, bqFits_iff cap⟩

/-- The default capacity of `main` is right. -/
theorem queue_setup_iff_default : RingFits 1024 ∧ BqFits 1024 :=
  ⟨((queue_setup_iff 1024 1024).2.1 none rfl).mpr nofun,
    (queue_setup_iff 1024 1024).2.2.mpr (by decide)⟩

/-- `2 ^ 61` on the command line, and a buffer of `2 ^ 62` values: `malloc` is asked for no
bytes. -/
theorem not_queue_setup :
    mainCapacity (some 2305843009213693952) = some 2305843009213693952 ∧
      ¬ RingFits 2305843009213693952 ∧ ¬ BqFits 4611686018427387904 := by
  refine ⟨by decide, fun h => ?_, fun h => ?_⟩
  · rcases (ringFits_iff _).mp h with href | hlt
    · exact absurd href (by decide)
    · exact absurd hlt (by decide)
  · exact absurd ((bqFits_iff _).mp h) (by decide)

end Queues
