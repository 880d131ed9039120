import SystemsDrills.Queue.Delivery

/-!
# The test of the bounded buffer

`producer`, `consumer` and `main` of `bounded_buffer.c`: each of `p` producers puts `n`
values of its own, each of `p` consumers gets `n` values and counts in `seen` how often it
got each.  The count is a load and a store outside the mutex.

The machine puts the two loops around the monitor of the queue.  No value is put twice,
so none is got twice, no two consumers are at one entry of `seen`, and in the end each
entry is 1.
-/

namespace BoundedBuffer

open Transition Cyclic Monitor

/-- Where a consumer is in `arg->seen[bq_get(arg->q)] += 1`. -/
inductive Body where
  /-- Before `bq_get` or in it. -/
  | out
  /-- `bq_get` returned `v`, before the load of `seen[v]`. -/
  | load (v : Int32)
  /-- The load returned `x`, before the store of `x + 1`. -/
  | store (v x : Int32)
deriving DecidableEq

/-- The queue, the loop variables of the producers and of the consumers, the counts and
the places of the consumers. -/
structure TestState (p : Nat) where
  queue : State (Fin p ⊕ Fin p) Bq Op Int32
  i : Fin p ⊕ Fin p → Nat
  seen : Int32 → Int32
  body : Fin p → Body

inductive TestAct (p : Nat) where
  | queue (a : Act (Fin p ⊕ Fin p) Op Int32)
  | load (j : Fin p)
  | store (j : Fin p)

/-- `arg->id * arg->n + i`, which is unsigned, passed as an `int`. -/
def value (n id i : Nat) : Int32 :=
  (UInt64.ofNat id * UInt64.ofNat n + UInt64.ofNat i).toUInt32.toInt32

namespace TestState

variable {p : Nat}

@[simps] def setQueue (s : TestState p) (q : State (Fin p ⊕ Fin p) Bq Op Int32) : TestState p :=
  { s with queue := q }

@[simps] def setI (s : TestState p) (t : Fin p ⊕ Fin p) (i : Nat) : TestState p :=
  { s with i := Function.update s.i t i }

@[simps] def setSeen (s : TestState p) (v x : Int32) : TestState p :=
  { s with seen := Function.update s.seen v x }

@[simps] def setBody (s : TestState p) (j : Fin p) (b : Body) : TestState p :=
  { s with body := Function.update s.body j b }

end TestState

inductive TestStep (n : Nat) {p : Nat} : TestState p → TestAct p → TestState p → Prop where
  /-- The loop test of `producer` succeeds and `bq_put` is called. -/
  | callPut {id : Fin p} :
      s.i (.inl id) < n →
      Step operations s.queue (.call (.inl id) (.put (value n id (s.i (.inl id))))) q →
      TestStep n s (.queue (.call (.inl id) (.put (value n id (s.i (.inl id)))))) (s.setQueue q)
  /-- The loop test of `consumer` succeeds and `bq_get` is called. -/
  | callGet :
      s.body j = .out → s.i (.inr j) < n →
      Step operations s.queue (.call (.inr j) .get) q →
      TestStep n s (.queue (.call (.inr j) .get)) (s.setQueue q)
  /-- A step inside `bq_put` or `bq_get`. -/
  | inside :
      (∀ t op, a ≠ .call t op) → (∀ t op r, a ≠ .ret t op r) →
      Step operations s.queue a q →
      TestStep n s (.queue a) (s.setQueue q)
  | retPut {id : Fin p} :
      Step operations s.queue (.ret (.inl id) op r) q →
      TestStep n s (.queue (.ret (.inl id) op r))
        ((s.setQueue q).setI (.inl id) (s.i (.inl id) + 1))
  | retGet :
      Step operations s.queue (.ret (.inr j) op (some v)) q →
      TestStep n s (.queue (.ret (.inr j) op (some v))) ((s.setQueue q).setBody j (.load v))
  | load :
      s.body j = .load v →
      TestStep n s (.load j) (s.setBody j (.store v (s.seen v)))
  | store :
      s.body j = .store v x →
      TestStep n s (.store j)
        (((s.setSeen v (x + 1)).setBody j .out).setI (.inr j) (s.i (.inr j) + 1))

/-- `p` producers and `p` consumers of `n` values each on the queue `q`. -/
def test (p n : Nat) (q : Bq) : System (TestState p) (TestAct p) where
  init s := s = ⟨⟨q, none, fun _ => .idle⟩, fun _ => 0, fun _ => 0, fun _ => .out⟩
  step := TestStep n

/-- The thread has left its loop. -/
def TestState.Finished {p : Nat} (s : TestState p) (n : Nat) (t : Fin p ⊕ Fin p) : Prop :=
  s.queue.pc t = .idle ∧ ¬ s.i t < n ∧ ∀ j, t = .inr j → s.body j = .out

/-! ## The values -/

theorem value_eq (n id i : Nat) : value n id i = Int32.ofNat (id * n + i) := by
  have h : UInt64.ofNat id * UInt64.ofNat n + UInt64.ofNat i = UInt64.ofNat (id * n + i) := by
    simp
  rw [value, h, UInt64.toUInt32_ofNat']
  rfl

theorem toInt_ofNat {m : Nat} (h : m < 2 ^ 31) : (Int32.ofNat m).toInt = m :=
  Int32.toInt_ofNat_of_lt h

/-- The numbers of all rounds of all producers. -/
theorem flatMap_rounds (p n : Nat) :
    ((List.finRange p).flatMap fun id => (List.range n).map fun i => id.val * n + i) =
      List.range (p * n) := by
  have h : ∀ p, ((List.range p).flatMap fun id => (List.range n).map fun i => id * n + i) =
      List.range (p * n) := by
    intro p
    induction p with
    | zero => simp
    | succ p ih => simp [List.range_succ, List.flatMap_append, ih, Nat.succ_mul, List.range_add]
  rw [← h p, ← List.map_coe_finRange_eq_range (n := p), List.flatMap_map]

theorem flatMap_values (p n : Nat) :
    ((List.finRange p).flatMap fun id : Fin p => (List.range n).map (value n id)) =
      (List.range (p * n)).map Int32.ofNat := by
  rw [← flatMap_rounds, List.map_flatMap]
  refine List.flatMap_congr fun id _ => ?_
  rw [List.map_map]
  exact List.map_congr_left fun i _ => value_eq n id i

/-- Different rounds put different values. -/
theorem nodup_values {p n : Nat} (h : p * n ≤ 2 ^ 31) {k : Fin p → Nat} (hk : ∀ id, k id ≤ n) :
    ((List.finRange p).flatMap fun id : Fin p => (List.range (k id)).map (value n id)).Nodup := by
  have hall : ((List.finRange p).flatMap fun id : Fin p => (List.range n).map (value n id)).Nodup := by
    rw [flatMap_values]
    refine List.nodup_range.map_on fun a ha b hb hab => ?_
    have := congrArg Int32.toInt hab
    rw [toInt_ofNat ((List.mem_range.mp ha).trans_le h),
      toInt_ofNat ((List.mem_range.mp hb).trans_le h)] at this
    exact_mod_cast this
  have hsub : ∀ id : Fin p, (List.range (k id)).map (value n id) ⊆ (List.range n).map (value n id) :=
    fun id => List.map_subset _ (List.range_subset.mpr (hk id))
  rw [List.nodup_flatMap] at hall ⊢
  refine ⟨fun id hid => ?_, hall.2.imp fun hd => ?_⟩
  · exact (hall.1 id hid).sublist ((List.range_sublist.mpr (hk id)).map _)
  · exact fun x hx hx' => hd (hsub _ hx) (hsub _ hx')

/-! ## Whose operations the sections are -/

section

variable {p n : Nat}

/-- The thread is in its section, which is settled and has not returned. -/
def TestState.busy (s : TestState p) (t : Fin p ⊕ Fin p) : Nat :=
  match s.queue.pending with
  | some (u, _, _) => if u = t then 1 else 0
  | none => 0

/-- The consumer has got a value that it has not counted. -/
def Body.owes : Body → Nat
  | .out => 0
  | .load _ | .store _ _ => 1

/-- The call that the loop of a thread makes in its present round. -/
def TestState.Calls (s : TestState p) (n : Nat) : Fin p ⊕ Fin p → Op → Prop
  | .inl id, op => op = .put (value n id (s.i (.inl id))) ∧ s.i (.inl id) < n
  | .inr j, op => op = .get ∧ s.i (.inr j) < n ∧ s.body j = .out

/-- The sections `h` are those of the rounds that the loops have made. -/
structure TestState.Rounds (s : TestState p) (n : Nat)
    (h : List ((Fin p ⊕ Fin p) × Op × Option Int32)) : Prop where
  producer : ∀ id : Fin p, ((h.filter (·.1 = .inl id)).map fun e => e.2.1) =
    (List.range (s.i (.inl id) + s.busy (.inl id))).map fun i => .put (value n id i)
  consumer : ∀ j : Fin p, ((h.filter (·.1 = .inr j)).map fun e => e.2.1) =
    List.replicate (s.i (.inr j) + s.busy (.inr j) + (s.body j).owes) .get
  calls : ∀ t op, (s.queue.pc t).op = some op → s.Calls n t op
  owing : ∀ j, s.body j ≠ .out → s.i (.inr j) < n
  le : ∀ t, s.i t ≤ n

variable {s : TestState p} {h : List ((Fin p ⊕ Fin p) × Op × Option Int32)}

/-- The parts of the sections that belong to the producers and to the consumers. -/
theorem perm_parts (h : List ((Fin p ⊕ Fin p) × Op × Option Int32)) :
    h.Perm (((List.finRange p).flatMap fun id => h.filter (·.1 = .inl id)) ++
      (List.finRange p).flatMap fun j => h.filter (·.1 = .inr j)) := by
  have hnodup : ((List.finRange p).map Sum.inl ++ (List.finRange p).map Sum.inr :
      List (Fin p ⊕ Fin p)).Nodup := by
    refine List.nodup_append.mpr ⟨(List.nodup_finRange p).map Sum.inl_injective,
      (List.nodup_finRange p).map Sum.inr_injective, ?_⟩
    simp
  have hperm := perm_flatMap_filter Prod.fst h hnodup (by simp)
  simpa [List.flatMap_append, List.flatMap_map] using hperm

theorem puts_eq_of_ops {l : List ((Fin p ⊕ Fin p) × Op × Option Int32)} {vs : List Int32}
    (hops : (l.map fun e => e.2.1) = vs.map .put) : puts l = vs := by
  induction l generalizing vs with
  | nil => simpa [puts, eq_comm] using hops
  | cons e l ih =>
      obtain ⟨t, op, r⟩ := e
      cases vs with
      | nil => simp at hops
      | cons v vs =>
          simp only [List.map_cons, List.cons.injEq] at hops
          obtain ⟨rfl, hops⟩ := hops
          rw [← ih hops]
          rfl

/-- The sections of a producer are puts. -/
theorem TestState.Rounds.op_producer (hr : s.Rounds n h) {id : Fin p}
    {e : (Fin p ⊕ Fin p) × Op × Option Int32} (he : e ∈ h.filter (·.1 = .inl id)) :
    ∃ v, e.2.1 = .put v := by
  have hmem : e.2.1 ∈ (h.filter (·.1 = .inl id)).map fun e => e.2.1 := List.mem_map_of_mem he
  rw [hr.producer id] at hmem
  obtain ⟨i, -, hop⟩ := List.mem_map.mp hmem
  exact ⟨_, hop.symm⟩

/-- The sections of a consumer are gets. -/
theorem TestState.Rounds.op_consumer (hr : s.Rounds n h) {j : Fin p}
    {e : (Fin p ⊕ Fin p) × Op × Option Int32} (he : e ∈ h.filter (·.1 = .inr j)) :
    e.2.1 = .get := by
  have hmem : e.2.1 ∈ (h.filter (·.1 = .inr j)).map fun e => e.2.1 := List.mem_map_of_mem he
  rw [hr.consumer j] at hmem
  exact List.eq_of_mem_replicate hmem

/-- The values that were put are those of the rounds. -/
theorem TestState.Rounds.puts_perm (hr : s.Rounds n h) :
    (puts h).Perm ((List.finRange p).flatMap fun id : Fin p =>
      (List.range (s.i (.inl id) + s.busy (.inl id))).map (value n id)) := by
  refine ((perm_parts h).filterMap putValue).trans (.of_eq ?_)
  rw [List.filterMap_append, List.filterMap_flatMap, List.filterMap_flatMap]
  have hput : ∀ id : Fin p, (h.filter (·.1 = .inl id)).filterMap putValue =
      (List.range (s.i (.inl id) + s.busy (.inl id))).map (value n id) := by
    intro id
    refine puts_eq_of_ops ?_
    rw [hr.producer id, List.map_map]
    rfl
  have hget : ∀ j : Fin p, (h.filter (·.1 = .inr j)).filterMap putValue = [] := by
    intro j
    refine List.filterMap_eq_nil_iff.mpr fun e he => ?_
    have hop := hr.op_consumer he
    obtain ⟨t, op, r⟩ := e
    obtain rfl : op = .get := hop
    rfl
  simp [hput, hget]

theorem TestState.Rounds.busy_le (hr : s.Rounds n h) (t : Fin p ⊕ Fin p) :
    s.i t + s.busy t ≤ n := by
  have hle := hr.le t
  rw [busy]
  split
  · rename_i u op r hpend
    split
    · rename_i hut
      subst hut
      have hcall := hr.calls u op (State.op_of_pending hpend)
      cases u with
      | inl id => exact hcall.2
      | inr j => exact hcall.2.1
    · exact hle
  · exact hle

/-- No value was put twice. -/
theorem TestState.Rounds.nodup_puts (hr : s.Rounds n h) (hn : p * n ≤ 2 ^ 31) : (puts h).Nodup :=
  (hr.puts_perm.nodup_iff).mpr (nodup_values hn fun id => hr.busy_le (.inl id))

/-! ## The steps of the loops -/

/-- A step of the queue that is inside a call or starts one. -/
theorem TestState.Rounds.setQueue (hr : s.Rounds n h) {q : State (Fin p ⊕ Fin p) Bq Op Int32}
    (hpend : q.pending = s.queue.pending)
    (hop : ∀ t op, (q.pc t).op = some op → (s.queue.pc t).op = some op ∨ s.Calls n t op) :
    (s.setQueue q).Rounds n h := by
  have hbusy : ∀ t, (s.setQueue q).busy t = s.busy t := fun t => by simp [busy, hpend]
  refine ⟨fun id => ?_, fun j => ?_, fun t op h => ?_, hr.owing, hr.le⟩
  · rw [hbusy]
    exact hr.producer id
  · rw [hbusy]
    exact hr.consumer j
  · have hcall : s.Calls n t op := (hop t op h).elim (hr.calls t op) fun hc => hc
    cases t with
    | inl id => exact hcall
    | inr j => exact hcall

/-- A section of the queue. -/
theorem TestState.Rounds.pass (hr : s.Rounds n h) {q : State (Fin p ⊕ Fin p) Bq Op Int32}
    {t : Fin p ⊕ Fin p} {op : Op} {r : Option Int32} (hpend : s.queue.pending = none)
    (hpend' : q.pending = some (t, op, r)) (hcall : (s.queue.pc t).op = some op)
    (hop : ∀ u op', (q.pc u).op = some op' → (s.queue.pc u).op = some op') :
    (s.setQueue q).Rounds n (h ++ [(t, op, r)]) := by
  have hbusy : ∀ u, s.busy u = 0 := fun u => by simp [busy, hpend]
  have hbusy' : ∀ u, (s.setQueue q).busy u = if t = u then 1 else 0 := fun u => by
    simp [busy, hpend']
  have hthis := hr.calls t op hcall
  refine ⟨fun id => ?_, fun j => ?_, fun u op' h => ?_, hr.owing, hr.le⟩
  · have hold := hr.producer id
    rw [hbusy, Nat.add_zero] at hold
    rw [hbusy', List.filter_append, List.map_append, hold, TestState.setQueue_i]
    by_cases ht : t = .inl id
    · subst ht
      obtain ⟨rfl, -⟩ := hthis
      simp [List.range_succ]
    · simp [ht]
  · have hold := hr.consumer j
    rw [hbusy, Nat.add_zero] at hold
    rw [hbusy', List.filter_append, List.map_append, hold, TestState.setQueue_i,
      TestState.setQueue_body]
    by_cases ht : t = .inr j
    · subst ht
      obtain ⟨rfl, -, hbody⟩ := hthis
      simp [hbody, Body.owes, List.replicate_succ']
    · simp [ht]
  · have hcall' := hr.calls u op' (hop u op' h)
    cases u with
    | inl id => exact hcall'
    | inr j => exact hcall'

/-- `bq_put` returns and the loop of the producer goes on. -/
theorem TestState.Rounds.retPut (hr : s.Rounds n h) {q : State (Fin p ⊕ Fin p) Bq Op Int32}
    {id : Fin p} {op : Op} {r : Option Int32} (hpend : s.queue.pending = some (.inl id, op, r))
    (hpend' : q.pending = none)
    (hop : ∀ u op', (q.pc u).op = some op' → u ≠ .inl id ∧ (s.queue.pc u).op = some op') :
    ((s.setQueue q).setI (.inl id) (s.i (.inl id) + 1)).Rounds n h := by
  have hlt : s.i (.inl id) < n := (hr.calls _ op (State.op_of_pending hpend)).2
  refine ⟨fun id' => ?_, fun j => ?_, fun u op' h => ?_, fun j hj => ?_, fun u => ?_⟩
  · have hold := hr.producer id'
    by_cases hid : id' = id
    · subst hid
      simpa [busy, hpend, hpend'] using hold
    · simpa [busy, hpend, hpend', hid, Ne.symm hid] using hold
  · simpa [busy, hpend, hpend'] using hr.consumer j
  · obtain ⟨hne, hu⟩ := hop u op' h
    have hcall := hr.calls u op' hu
    cases u with
    | inl id' =>
        have hid : id' ≠ id := fun e => hne (by rw [e])
        simpa [Calls, hid] using hcall
    | inr j => exact hcall
  · exact hr.owing j hj
  · by_cases hu : u = .inl id
    · subst hu
      simpa using hlt
    · simpa [hu] using hr.le u

/-- `bq_get` returns. -/
theorem TestState.Rounds.retGet (hr : s.Rounds n h) {q : State (Fin p ⊕ Fin p) Bq Op Int32}
    {j : Fin p} {op : Op} {v : Int32} (hpend : s.queue.pending = some (.inr j, op, some v))
    (hpend' : q.pending = none)
    (hop : ∀ u op', (q.pc u).op = some op' → u ≠ .inr j ∧ (s.queue.pc u).op = some op') :
    ((s.setQueue q).setBody j (.load v)).Rounds n h := by
  obtain ⟨-, hlt, hout⟩ := hr.calls _ op (State.op_of_pending hpend)
  refine ⟨fun id => ?_, fun j' => ?_, fun u op' h => ?_, fun j' hj => ?_, hr.le⟩
  · simpa [busy, hpend, hpend'] using hr.producer id
  · have hold := hr.consumer j'
    by_cases hj : j' = j
    · subst hj
      simpa [busy, hpend, hpend', hout, Body.owes] using hold
    · simpa [busy, hpend, hpend', hj, Ne.symm hj] using hold
  · obtain ⟨hne, hu⟩ := hop u op' h
    have hcall := hr.calls u op' hu
    cases u with
    | inl id => exact hcall
    | inr j' =>
        have hj : j' ≠ j := fun e => hne (by rw [e])
        simpa [Calls, hj] using hcall
  · by_cases hj' : j' = j
    · exact hj' ▸ hlt
    · exact hr.owing j' (by simpa [hj'] using hj)

/-- A consumer that is not in a call moves on in its body, or to its next round. -/
theorem TestState.Rounds.setBody (hr : s.Rounds n h) {s' : TestState p} {j : Fin p} {b : Body}
    {i : Nat} (hout : s.body j ≠ .out) (hq : s'.queue = s.queue)
    (hbody : s'.body = Function.update s.body j b) (hi : s'.i = Function.update s.i (.inr j) i)
    (hsame : i + b.owes = s.i (.inr j) + (s.body j).owes) (hlt : b ≠ .out → i < n) (hle : i ≤ n) :
    s'.Rounds n h := by
  have hbusy : ∀ t, s'.busy t = s.busy t := fun t => by simp [busy, hq]
  refine ⟨fun id => ?_, fun j' => ?_, fun u op hop => ?_, fun j' hj' => ?_, fun u => ?_⟩
  · rw [hbusy, hi]
    simpa using hr.producer id
  · have hold := hr.consumer j'
    by_cases hj : j' = j
    · subst hj
      rw [hbusy, hi, hbody, Function.update_self, Function.update_self, hold]
      congr 1
      omega
    · rw [hbusy, hi, hbody, Function.update_of_ne hj,
        Function.update_of_ne (fun e => hj (Sum.inr.inj e)), hold]
  · rw [hq] at hop
    have hcall := hr.calls u op hop
    cases u with
    | inl id => simpa [Calls, hi] using hcall
    | inr j' =>
        -- A consumer in a call is not the one that moves.
        have hj : j' ≠ j := fun e => hout (e ▸ hcall.2.2)
        simpa [Calls, hi, hbody, hj] using hcall
  · by_cases hj : j' = j
    · subst hj
      rw [hbody, Function.update_self] at hj'
      simpa [hi] using hlt hj'
    · rw [hbody, Function.update_of_ne hj] at hj'
      simpa [hi, hj] using hr.owing j' hj'
  · by_cases hu : u = .inr j
    · subst hu
      simpa [hi] using hle
    · simpa [hi, hu] using hr.le u

/-! ## The counts -/

/-- The consumer has got the value `v` and has not counted it. -/
def TestState.Owes (s : TestState p) (j : Fin p) (v : Int32) : Prop :=
  s.queue.pending = some (.inr j, .get, some v) ∨ s.body j = .load v ∨ ∃ x, s.body j = .store v x

/-- The entry of a value that was got is 1, or 0 as long as one consumer has it to
count. -/
structure TestState.Counts (s : TestState p) (h : List ((Fin p ⊕ Fin p) × Op × Option Int32)) :
    Prop where
  owed : ∀ j v, s.Owes j v → v ∈ gets h ∧ s.seen v = 0
  unique : ∀ j j' v, s.Owes j v → s.Owes j' v → j = j'
  counted : ∀ v ∈ gets h, (∃ j, s.Owes j v) ∨ s.seen v = 1
  fresh : ∀ v, v ∉ gets h → s.seen v = 0
  loaded : ∀ j v x, s.body j = .store v x → x = s.seen v

/-- A step that no consumer notices. -/
theorem TestState.Counts.congr (hc : s.Counts h) {s' : TestState p}
    {h' : List ((Fin p ⊕ Fin p) × Op × Option Int32)} (hgets : gets h' = gets h)
    (howes : ∀ j v, s'.Owes j v ↔ s.Owes j v) (hseen : s'.seen = s.seen)
    (hloaded : ∀ j v x, s'.body j = .store v x → s.body j = .store v x ∨ x = s.seen v) :
    s'.Counts h' := by
  refine ⟨fun j v hj => ?_, fun j j' v hj hj' => ?_, fun v hv => ?_, fun v hv => ?_,
    fun j v x hx => ?_⟩
  · rw [hgets, hseen]
    exact hc.owed j v ((howes j v).mp hj)
  · exact hc.unique j j' v ((howes j v).mp hj) ((howes j' v).mp hj')
  · rw [hgets] at hv
    rw [hseen]
    simpa only [howes] using hc.counted v hv
  · rw [hgets] at hv
    rw [hseen]
    exact hc.fresh v hv
  · rw [hseen]
    exact (hloaded j v x hx).elim (hc.loaded j v x) fun h => h

/-- A consumer moves on with the value that it owes. -/
theorem TestState.Counts.setBody (hc : s.Counts h) {s' : TestState p} {j : Fin p} {b : Body}
    (hbody : s'.body = Function.update s.body j b) (hseen : s'.seen = s.seen)
    (hpend : ∀ j', j' ≠ j → ∀ e, s'.queue.pending = some (.inr j', e) ↔
      s.queue.pending = some (.inr j', e))
    (howes : ∀ v, s'.Owes j v ↔ s.Owes j v) (hloaded : ∀ v x, b = .store v x → x = s.seen v) :
    s'.Counts h := by
  refine hc.congr rfl (fun j' v => ?_) hseen fun j' v x hx => ?_
  · by_cases hj : j' = j
    · subst hj
      exact howes v
    · rw [Owes, Owes, hbody, Function.update_of_ne hj, hpend j' hj]
  · rw [hbody] at hx
    by_cases hj : j' = j
    · subst hj
      rw [Function.update_self] at hx
      exact .inr (hloaded v x hx)
    · rw [Function.update_of_ne hj] at hx
      exact .inl hx

/-- A consumer gets a value that was not got before. -/
theorem TestState.Counts.get (hc : s.Counts h) {q : State (Fin p ⊕ Fin p) Bq Op Int32} {j : Fin p}
    {v : Int32} (hpend : s.queue.pending = none)
    (hpend' : q.pending = some (.inr j, .get, some v)) (hv : v ∉ gets h) :
    (s.setQueue q).Counts (h ++ [(.inr j, .get, some v)]) := by
  have howes : ∀ j' v', (s.setQueue q).Owes j' v' ↔ j' = j ∧ v' = v ∨ s.Owes j' v' := by
    intro j' v'
    simp only [Owes, TestState.setQueue_queue, TestState.setQueue_body, hpend, hpend',
      Option.some.injEq, Prod.mk.injEq, Sum.inr.injEq, true_and, reduceCtorEq, false_or]
    rw [eq_comm (a := j), eq_comm (a := v)]
  have hgets : gets (h ++ [(.inr j, .get, some v)]) = gets h ++ [v] := by simp
  have hnone : ∀ j', ¬ s.Owes j' v := fun j' ho => hv (hc.owed j' v ho).1
  refine ⟨fun j' v' ho => ?_, fun j' j'' v' ho ho' => ?_, fun v' hv' => ?_, fun v' hv' => ?_,
    hc.loaded⟩
  · rw [hgets]
    rcases (howes j' v').mp ho with ⟨-, rfl⟩ | ho
    · exact ⟨by simp, hc.fresh v' hv⟩
    · obtain ⟨hmem, hseen⟩ := hc.owed j' v' ho
      exact ⟨List.mem_append_left _ hmem, hseen⟩
  · rcases (howes j' v').mp ho with ⟨rfl, rfl⟩ | ho1
    · rcases (howes j'' v').mp ho' with ⟨rfl, -⟩ | ho2
      · rfl
      · exact absurd ho2 (hnone j'')
    · rcases (howes j'' v').mp ho' with ⟨-, rfl⟩ | ho2
      · exact absurd ho1 (hnone j')
      · exact hc.unique j' j'' v' ho1 ho2
  · rw [hgets] at hv'
    rcases List.mem_append.mp hv' with hmem | hmem
    · refine (hc.counted v' hmem).imp_left ?_
      rintro ⟨j', ho⟩
      exact ⟨j', (howes j' v').mpr (.inr ho)⟩
    · obtain rfl := List.mem_singleton.mp hmem
      exact .inl ⟨j, (howes j v').mpr (.inl ⟨rfl, rfl⟩)⟩
  · rw [hgets] at hv'
    exact hc.fresh v' fun hmem => hv' (List.mem_append_left _ hmem)

/-- A consumer stores the new count of its value. -/
theorem TestState.Counts.store (hc : s.Counts h) {j : Fin p} {v x : Int32}
    (hbody : s.body j = .store v x) (hpend : ∀ r, s.queue.pending ≠ some (.inr j, .get, r)) :
    (((s.setSeen v (x + 1)).setBody j .out).setI (.inr j) (s.i (.inr j) + 1)).Counts h := by
  have hown : s.Owes j v := .inr (.inr ⟨x, hbody⟩)
  obtain ⟨hmem, hzero⟩ := hc.owed j v hown
  have hx : x = 0 := (hc.loaded j v x hbody).trans hzero
  have howes : ∀ j' v', (((s.setSeen v (x + 1)).setBody j .out).setI (.inr j)
      (s.i (.inr j) + 1)).Owes j' v' → s.Owes j' v' ∧ j' ≠ j := by
    intro j' v' ho
    by_cases hj : j' = j
    · subst hj
      rcases ho with ho | ho | ⟨y, ho⟩
      · exact absurd ho (hpend _)
      · simp at ho
      · simp at ho
    · refine ⟨?_, hj⟩
      simpa [Owes, hj] using ho
  -- The consumers that are left owe other values.
  have hne : ∀ j' v', s.Owes j' v' → j' ≠ j → v' ≠ v := by
    rintro j' v' ho hj rfl
    exact hj (hc.unique j' j v' ho hown)
  refine ⟨fun j' v' ho => ?_, fun j' j'' v' ho ho' => ?_, fun v' hv' => ?_, fun v' hv' => ?_,
    fun j' v' y hy => ?_⟩
  · obtain ⟨ho, hj⟩ := howes j' v' ho
    have hv' := hne j' v' ho hj
    simpa [hv'] using hc.owed j' v' ho
  · exact hc.unique j' j'' v' (howes j' v' ho).1 (howes j'' v' ho').1
  · by_cases hvv : v' = v
    · subst hvv
      right
      simp [hx]
    · rcases hc.counted v' hv' with ⟨j', ho⟩ | hone
      · left
        have hj : j' ≠ j := by
          rintro rfl
          rcases ho with ho | ho | ⟨y, ho⟩
          · exact hpend _ ho
          · simp [hbody] at ho
          · rw [hbody] at ho
            exact hvv (Body.store.inj ho).1.symm
        exact ⟨j', by simpa [Owes, hj] using ho⟩
      · right
        simpa [hvv] using hone
  · have hvv : v' ≠ v := fun e => hv' (e ▸ hmem)
    simpa [hvv] using hc.fresh v' hv'
  · have hj : j' ≠ j := by
      rintro rfl
      simp at hy
    have hold : s.body j' = .store v' y := by simpa [hj] using hy
    have hvv := hne j' v' (.inr (.inr ⟨y, hold⟩)) hj
    simpa [hvv] using hc.loaded j' v' y hold

/-! ## The invariant -/

/-- The state after the sections `h`. -/
structure TestState.Inv (s : TestState p) (cap : UInt64) (n : Nat)
    (h : List ((Fin p ⊕ Fin p) × Op × Option Int32)) : Prop where
  excl : s.queue.Excl
  delivers : Delivers cap s.queue.settled h
  rounds : s.Rounds n h
  counts : s.Counts h

variable {cap : UInt64} {q : State (Fin p ⊕ Fin p) Bq Op Int32}

/-- A step of the queue that is inside a call or starts one. -/
theorem TestState.Inv.quiet (hi : s.Inv cap n h) {a : Act (Fin p ⊕ Fin p) Op Int32}
    (hq : Step operations s.queue a q) (ha : ∀ t op, a ≠ .pass t op) (hret : a.served = none)
    (hcall : ∀ t op, a = .call t op → s.Calls n t op) : (s.setQueue q).Inv cap n h := by
  have hpend := hq.pending_eq hi.excl ha hret
  refine ⟨excl_step hi.excl hq, ?_, hi.rounds.setQueue hpend fun t op hop => ?_, ?_⟩
  · rw [TestState.setQueue_queue, (hq.settled_eq hi.excl ha).1]
    exact hi.delivers
  · rcases hq.op_inv hop with rfl | ⟨hop, -⟩
    · exact .inr (hcall t op rfl)
    · exact .inl hop
  · exact hi.counts.congr rfl (fun j v => by simp [Owes, hpend]) rfl fun j v x hx => .inl hx

/-- A section of the queue. -/
theorem TestState.Inv.pass (hi : s.Inv cap n h) (hn : p * n ≤ 2 ^ 31) {t : Fin p ⊕ Fin p} {op : Op}
    (hq : Step operations s.queue (.pass t op) q) :
    (s.setQueue q).Inv cap n (h ++ [(t, op, (operations.apply op s.queue.settled).2)]) := by
  obtain ⟨hb, hpend, hset, hpend'⟩ := hq.settled_pass hi.excl
  have hd := hi.delivers.next (t := t) hb
  have hr := hi.rounds.pass hpend hpend' hq.pass_op fun u op' hop => by
    rcases hq.op_inv hop with h | ⟨hop, -⟩
    · cases h
    · exact hop
  refine ⟨excl_step hi.excl hq, by rw [TestState.setQueue_queue, hset]; exact hd, hr, ?_⟩
  have hcall := hi.rounds.calls t op hq.pass_op
  cases t with
  | inl id =>
      obtain ⟨rfl, -⟩ := hcall
      refine hi.counts.congr (by simp) (fun j v => ?_) rfl fun j v x hx => .inl hx
      simp [Owes, hpend, hpend']
  | inr j =>
      obtain ⟨rfl, -⟩ := hcall
      obtain ⟨v, hv⟩ := Option.isSome_iff_exists.mp (hi.delivers.load hb)
      rw [apply_get, hv] at hpend' hr hd ⊢
      refine hi.counts.get hpend hpend' fun hmem => ?_
      -- The value would have been put twice.
      obtain ⟨vs, -, hputs⟩ := hd.holds
      have hnodup := hr.nodup_puts hn
      rw [hputs] at hnodup
      have hgets := (List.nodup_append.mp hnodup).1
      rw [gets_append, gets_get, Option.toList_some] at hgets
      exact (List.nodup_append.mp hgets).2.2 v hmem v (List.mem_singleton_self v) rfl

/-- The other threads are in their calls when one returns. -/
theorem ops_of_ret {s q : State (Fin p ⊕ Fin p) Bq Op Int32} {t : Fin p ⊕ Fin p} {op : Op}
    {r : Option Int32} (hq : Step operations s (.ret t op r) q) (u : Fin p ⊕ Fin p) (op' : Op)
    (hop : (q.pc u).op = some op') : u ≠ t ∧ (s.pc u).op = some op' := by
  rcases hq.op_inv hop with h | ⟨hop, hne⟩
  · cases h
  · exact ⟨fun e => hne op r (by rw [e]), hop⟩

theorem inv_step (hn : p * n ≤ 2 ^ 31) {a : TestAct p} {s' : TestState p} (hi : s.Inv cap n h)
    (hstep : TestStep n s a s') : ∃ h', s'.Inv cap n h' := by
  cases hstep with
  | callPut hlt hq =>
      refine ⟨h, hi.quiet hq (by simp) rfl ?_⟩
      rintro t op ⟨⟩
      exact ⟨rfl, hlt⟩
  | callGet hout hlt hq =>
      refine ⟨h, hi.quiet hq (by simp) rfl ?_⟩
      rintro t op ⟨⟩
      exact ⟨rfl, hlt, hout⟩
  | inside hcall hret hq =>
      rename_i a q
      by_cases hpass : ∃ t op, a = .pass t op
      · obtain ⟨t, op, rfl⟩ := hpass
        exact ⟨_, hi.pass hn hq⟩
      · refine ⟨h, hi.quiet hq (fun t op he => hpass ⟨t, op, he⟩) ?_ fun t op he => ?_⟩
        · cases a with
          | ret t op r => exact absurd rfl (hret t op r)
          | _ => rfl
        · exact absurd he (hcall t op)
  | retPut hq =>
      obtain ⟨hpend, hpend'⟩ := hq.pending_ret hi.excl
      refine ⟨h, excl_step hi.excl hq, ?_, hi.rounds.retPut hpend hpend' (ops_of_ret hq), ?_⟩
      · rw [TestState.setI_queue, TestState.setQueue_queue, (hq.settled_eq hi.excl (by simp)).1]
        exact hi.delivers
      · refine hi.counts.congr rfl (fun j v => ?_) rfl fun j v x hx => .inl hx
        simp [TestState.Owes, hpend, hpend']
  | retGet hq =>
      obtain ⟨hpend, hpend'⟩ := hq.pending_ret hi.excl
      have hcall := hi.rounds.calls _ _ hq.ret_op.1
      rename_i v q j
      obtain ⟨rfl, -, hout⟩ := hcall
      refine ⟨h, excl_step hi.excl hq, ?_, hi.rounds.retGet hpend hpend' (ops_of_ret hq), ?_⟩
      · rw [TestState.setBody_queue, TestState.setQueue_queue, (hq.settled_eq hi.excl (by simp)).1]
        exact hi.delivers
      · refine hi.counts.setBody rfl rfl (fun j' hj e => ?_) (fun v' => ?_) (by simp)
        · simp [hpend, hpend', Ne.symm hj]
        · simp [TestState.Owes, hpend, hpend', hout]
  | load hbody =>
      rename_i j v
      refine ⟨h, hi.excl, hi.delivers, ?_, ?_⟩
      · have hlt := hi.rounds.owing j (by simp [hbody])
        exact hi.rounds.setBody (by simp [hbody]) rfl rfl (Function.update_eq_self _ _).symm
          (by simp [hbody, Body.owes]) (fun _ => hlt) hlt.le
      · refine hi.counts.setBody rfl rfl (fun _ _ _ => Iff.rfl) (fun v' => ?_) fun v' x hx => ?_
        · simp [TestState.Owes, hbody]
        · obtain ⟨rfl, rfl⟩ := Body.store.inj hx
          rfl
  | store hbody =>
      rename_i j v x
      have hlt := hi.rounds.owing j (by simp [hbody])
      refine ⟨h, hi.excl, hi.delivers, ?_, hi.counts.store hbody fun r hpend => ?_⟩
      · exact hi.rounds.setBody (by simp [hbody]) rfl rfl rfl (by simp [hbody, Body.owes])
          (by simp) hlt
      · have hcall := hi.rounds.calls _ _ (State.op_of_pending hpend)
        exact absurd hcall.2.2 (by simp [hbody])

theorem inv_invariant (hn : p * n ≤ 2 ^ 31) {q₀ : Bq}
    (h0 : Delivers (T := Fin p ⊕ Fin p) cap q₀ []) :
    (test p n q₀).Invariant fun s => ∃ h, s.Inv cap n h where
  start := by
    rintro s rfl
    refine ⟨[], ?_, h0, ?_, ?_⟩
    · intro t
      simp [Pc.Holds]
    · exact ⟨fun id => rfl, fun j => rfl, fun t op hop => by simp [Pc.op] at hop, fun j hj => by simp at hj,
        fun t => Nat.zero_le n⟩
    · refine ⟨fun j v ho => ?_, fun j j' v ho => ?_, by simp [gets], fun v _ => rfl,
        fun j v x hx => by simp at hx⟩
      · rcases ho with ho | ho | ⟨x, ho⟩ <;> cases ho
      · rcases ho with ho | ho | ⟨x, ho⟩ <;> cases ho
  next _ _ _ _ := fun ⟨_, hi⟩ h => inv_step hn hi h

/-! ## The end -/

theorem length_gets {l : List ((Fin p ⊕ Fin p) × Op × Option Int32)}
    (hops : ∀ e ∈ l, e.2.1 = .get) (hsome : ∀ e ∈ l, e.2.2.isSome) :
    (gets l).length = l.length := by
  induction l with
  | nil => rfl
  | cons e l ih =>
      obtain ⟨t, op, r⟩ := e
      obtain rfl : op = .get := hops (t, op, r) List.mem_cons_self
      obtain ⟨v, rfl⟩ := Option.isSome_iff_exists.mp (hsome (t, .get, r) List.mem_cons_self)
      have hrest := ih (fun e he => hops e (List.mem_cons_of_mem _ he))
        fun e he => hsome e (List.mem_cons_of_mem _ he)
      simpa [gets, gotValue] using hrest

theorem TestState.Finished.pending {s : TestState p} (hf : ∀ t, s.Finished n t) :
    s.queue.pending = none := by
  cases hp : s.queue.pending with
  | none => rfl
  | some e =>
      obtain ⟨t, op, r⟩ := e
      have := State.op_of_pending hp
      rw [(hf t).1] at this
      cases this

/-- When all have finished, all values were put. -/
theorem TestState.Inv.puts_perm (hi : s.Inv cap n h) (hf : ∀ t, s.Finished n t) :
    (puts h).Perm ((List.range (p * n)).map Int32.ofNat) := by
  rw [← flatMap_values]
  refine hi.rounds.puts_perm.trans (.of_eq (List.flatMap_congr fun id _ => ?_))
  have hi' : s.i (.inl id) = n :=
    le_antisymm (hi.rounds.le (.inl id)) (not_lt.mp (hf (.inl id)).2.1)
  rw [busy, Finished.pending hf, hi']
  rfl

/-- When all have finished, as many values were got. -/
theorem TestState.Inv.length_gets_eq (hi : s.Inv cap n h) (hf : ∀ t, s.Finished n t) :
    (gets h).length = p * n := by
  have hparts := ((perm_parts h).filterMap gotValue).length_eq
  rw [List.filterMap_append, List.filterMap_flatMap, List.filterMap_flatMap] at hparts
  have hput : ∀ id : Fin p, (h.filter (·.1 = .inl id)).filterMap gotValue = [] := by
    intro id
    refine List.filterMap_eq_nil_iff.mpr fun e he => ?_
    obtain ⟨v, hop⟩ := hi.rounds.op_producer he
    obtain ⟨t, op, r⟩ := e
    obtain rfl : op = .put v := hop
    rfl
  have hget : ∀ j : Fin p, ((h.filter (·.1 = .inr j)).filterMap gotValue).length = n := by
    intro j
    have hlen := congrArg List.length (hi.rounds.consumer j)
    have hj : s.i (.inr j) = n :=
      le_antisymm (hi.rounds.le (.inr j)) (not_lt.mp (hf (.inr j)).2.1)
    rw [busy, Finished.pending hf, hj, (hf (.inr j)).2.2 j rfl, List.length_replicate,
      List.length_map] at hlen
    refine (length_gets (fun e he => hi.rounds.op_consumer he) fun e he => ?_).trans hlen
    exact hi.delivers.got e (List.mem_filter.mp he).1 (hi.rounds.op_consumer he)
  simp only [hput, hget, List.length_append, List.length_flatMap] at hparts
  rw [gets, hparts]
  simp

/-- When all have finished, each value was counted once. -/
theorem TestState.Inv.seen_eq_one (hi : s.Inv cap n h) (hn : p * n ≤ 2 ^ 31)
    (hf : ∀ t, s.Finished n t) {v : Int32} (h0 : 0 ≤ v.toInt) (hv : v.toInt < p * n) :
    s.seen v = 1 := by
  have hperm := hi.puts_perm hf
  have heq : gets h = puts h := by
    refine (hi.delivers.before h List.prefix_rfl).eq_of_length ?_
    rw [hi.length_gets_eq hf, hperm.length_eq, List.length_map, List.length_range]
  have hmem : v ∈ gets h := by
    rw [heq, hperm.mem_iff]
    refine List.mem_map.mpr ⟨v.toInt.toNat, List.mem_range.mpr (by omega), ?_⟩
    rw [← Int32.toInt_inj, toInt_ofNat (by omega)]
    omega
  rcases hi.counts.counted v hmem with ⟨j, ho⟩ | hone
  · have hout := (hf (.inr j)).2.2 j rfl
    rcases ho with ho | ho | ⟨x, ho⟩
    · rw [Finished.pending hf] at ho
      cases ho
    · rw [hout] at ho
      cases ho
    · rw [hout] at ho
      cases ho
  · exact hone

/-- A value that a consumer has to count is an index of `seen`. -/
theorem TestState.Inv.index (hi : s.Inv cap n h) (hn : p * n ≤ 2 ^ 31) {j : Fin p} {v : Int32}
    (ho : s.Owes j v) : 0 ≤ v.toInt ∧ v.toInt < p * n := by
  have hmem := (hi.delivers.before h List.prefix_rfl).subset (hi.counts.owed j v ho).1
  rw [hi.rounds.puts_perm.mem_iff] at hmem
  obtain ⟨id, -, hmem⟩ := List.mem_flatMap.mp hmem
  obtain ⟨i, hi', rfl⟩ := List.mem_map.mp hmem
  have hin : i < n := (List.mem_range.mp hi').trans_le (hi.rounds.busy_le (.inl id))
  have hlt : id.val * n + i < p * n := by
    have := Nat.mul_le_mul_right n (Nat.succ_le_of_lt id.isLt)
    rw [Nat.succ_mul] at this
    omega
  rw [value_eq, toInt_ofNat (hlt.trans_le hn)]
  exact ⟨by omega, by exact_mod_cast hlt⟩

end

/-- Exactly-once delivery in order.  Any threads call `bq_put` and `bq_get` on a queue that
`bq_init` returned, with any capacity and room for `cap` values.  In the order of the
sections, what was got is a prefix of what was put.  Whenever the mutex is free,
`count <= cap`, `head` is `tail + count` modulo `cap`, and the buffer holds from `tail` on
what was put and not got.

In the test, with `p` producers and `p` consumers of `n` values each that are numbers of
type `int`, consumers index `seen` inside its `p * n` entries, and when all threads have
finished each entry is 1. -/
theorem delivered_exactly_once {malloc : UInt64 → Option (List Int32)} {cap : UInt64} {q : Bq}
    (hq : bqInit malloc cap = some q) (hbuf : q.buf.length = cap.toNat) :
    (∀ {T : Type} [DecidableEq T] {n : Nat} (r : Run (machine (T := T) operations q) n) (k : Nat),
      k ≤ n → gets (served r k) <+: puts (served r k) ∧
        ((r.st k).mutex = none →
          (r.st k).data.count.toNat ≤ cap.toNat ∧
          (r.st k).data.head.toNat =
            ((r.st k).data.tail.toNat + (r.st k).data.count.toNat) % cap.toNat ∧
          ∃ vs, puts (served r k) = gets (served r k) ++ vs ∧
            vs.length = (r.st k).data.count.toNat ∧
            ∀ i < vs.length,
              (r.st k).data.buf[((r.st k).data.tail.toNat + i) % cap.toNat]? = vs[i]?)) ∧
    (∀ {p n : Nat}, p * n ≤ 2 ^ 31 → ∀ s, (test p n q).Reachable s →
      (∀ j v, s.body j = .load v ∨ (∃ x, s.body j = .store v x) →
        0 ≤ v.toInt ∧ v.toInt < p * n) ∧
      ((∀ t, s.Finished n t) →
        ∀ v : Int32, 0 ≤ v.toInt → v.toInt < p * n → s.seen v = 1)) := by
  refine ⟨fun r k hk => ⟨gets_prefix_puts hq hbuf r hk, fun hfree => ?_⟩, fun hn s hs => ?_⟩
  · have hd := delivers_of_free hq hbuf r hk hfree
    obtain ⟨vs, hvs, hputs⟩ := hd.holds
    have hcap := hd.cap_eq
    have hle := hvs.window.fits
    have hhead := hvs.head
    have hitems := hvs.window.items
    rw [hcap] at hle hhead hitems
    exact ⟨hvs.count ▸ hle, hhead, vs, hputs, hvs.count.symm, hitems⟩
  · obtain ⟨h, hi⟩ := (inv_invariant hn (delivers_init hq hbuf)).reachable hs
    exact ⟨fun j v ho => hi.index hn (.inr ho), fun hf v h0 hv => hi.seen_eq_one hn hf h0 hv⟩

/-- One producer and one consumer, which waits first. -/
theorem delivered_exactly_once_waiting :
    ∃ s, (test 1 1 ⟨[0], 0, 0, 0, 1⟩).Reachable s ∧ (∀ t, s.Finished 1 t) ∧ s.seen 0 = 1 := by
  let S := test 1 1 ⟨[0], 0, 0, 0, 1⟩
  have inside : ∀ {s a q}, S.Reachable s → Step operations s.queue a q →
      (∀ t op, a ≠ .call t op) → (∀ t op r, a ≠ .ret t op r) → S.Reachable (s.setQueue q) :=
    fun hs hq hcall hret => hs.step (.inside hcall hret hq)
  have h0 : S.Reachable ⟨⟨⟨[0], 0, 0, 0, 1⟩, none, fun _ => .idle⟩, fun _ => 0, fun _ => 0,
    fun _ => .out⟩ := .init rfl
  have h1 := h0.step (.callGet (j := 0) rfl (by decide) (.call rfl))
  have h2 := inside h1 (.lock (t := .inr 0) rfl rfl) (by simp) (by simp)
  have h3 := inside h2 (.wait (t := .inr 0) (show _ = Pc.test Op.get from rfl) rfl rfl) (by simp) (by simp)
  have h4 := h3.step (.callPut (by decide) (.call (t := Sum.inl 0) rfl))
  have h5 := inside h4 (.lock (t := .inl 0) rfl rfl) (by simp) (by simp)
  have h6 := inside h5 (.pass (t := .inl 0) rfl (by decide)) (by simp) (by simp)
  have h7 := inside h6 (.body (t := .inl 0) rfl) (by simp) (by simp)
  have h8 := inside h7 (.body (t := .inl 0) rfl) (by simp) (by simp)
  have h9 := inside h8 (.body (t := .inl 0) rfl) (by simp) (by simp)
  have h10 := inside h9 (.signalOne (t := .inl 0) (u := .inr 0) rfl rfl rfl) (by simp) (by simp)
  have h11 := h10.step (.retPut (.unlock (t := Sum.inl 0) rfl))
  have h12 := inside h11 (.relock (t := .inr 0) rfl rfl) (by simp) (by simp)
  have h13 := inside h12 (.pass (t := .inr 0) rfl (by decide)) (by simp) (by simp)
  have h14 := inside h13 (.body (t := .inr 0) rfl) (by simp) (by simp)
  have h15 := inside h14 (.body (t := .inr 0) rfl) (by simp) (by simp)
  have h16 := inside h15 (.body (t := .inr 0) rfl) (by simp) (by simp)
  have h17 := inside h16 (.signalNone (t := .inr 0) rfl fun u op' hu => by
    fin_cases u <;> cases hu) (by simp) (by simp)
  have h18 := h17.step (.retGet (v := 0) (.unlock (t := Sum.inr 0) rfl))
  have h19 := h18.step (.load (j := 0) rfl)
  have h20 := h19.step (.store (j := 0) rfl)
  have hq : bqInit (fun _ => some [0]) 1 = some ⟨[0], 0, 0, 0, 1⟩ := rfl
  have key := (delivered_exactly_once hq rfl).2 (p := 1) (n := 1) (by norm_num) _ h20
  refine ⟨_, h20, ?fin, key.2 ?fin 0 (by decide) (by decide)⟩
  intro t
  fin_cases t
  · exact ⟨rfl, by decide, by simp⟩
  · exact ⟨rfl, by decide, fun j _ => by fin_cases j; rfl⟩

end BoundedBuffer
