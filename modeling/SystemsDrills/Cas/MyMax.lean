import SystemsDrills.Lib.CasLoop

/-!
# Fetch-and-max by compare-and-exchange

`my_max` and `worker_my_max` of `concurrency/04-cas/cas.c`.  A call stores `v` only as
long as `v` is bigger than its snapshot of the counter.  A failed exchange refreshes the
snapshot, and the condition is tested against the new value.  So a call may take effect
at its load, at a failed exchange or at the exchange that stores `v`.

This is the loop of `SystemsDrills.Lib.CasLoop` that stops when the snapshot is large
enough.
-/

namespace Cas

open Transition CasLoop

/-- What `my_max` wants to store in place of the snapshot, if anything. -/
def myMax (v p_snapshot : Int64) : Option Int64 := if v > p_snapshot then some v else none

/-- The value that round `i` of `worker_my_max` offers. -/
def offer (num_thread id i : Nat) : Int64 :=
  Int64.ofNat i * Int64.ofNat num_thread + Int64.ofNat id

/-- The calls of `worker_my_max`. -/
def workerMyMax (iter : Nat) {num_thread : Nat} (id : Fin num_thread) : Nat → Option Int64 :=
  upTo iter (offer num_thread id)

/-- The largest of the initial value and the arguments. -/
def largest (v₀ : Int64) (vs : List Int64) : Int := (vs.map Int64.toInt).foldl max v₀.toInt

theorem update_myMax (v s : Int64) : (update myMax v s).toInt = max s.toInt v.toInt := by
  simp only [update, myMax, gt_iff_lt, Int64.lt_iff_toInt_lt]
  split
  · next h => exact (max_eq_right h.le).symm
  · next h => exact (max_eq_left (not_lt.mp h)).symm

theorem updates_myMax (v₀ : Int64) (vs : List Int64) :
    (updates myMax v₀ vs).toInt = largest v₀ vs := by
  induction vs generalizing v₀ with
  | nil => rfl
  | cons v vs ih =>
      have hcons : updates myMax v₀ (v :: vs) = updates myMax (update myMax v v₀) vs := rfl
      rw [hcons, ih]
      simp [largest, update_myMax]

theorem largest_le_iff {v₀ : Int64} {vs : List Int64} {x : Int} :
    largest v₀ vs ≤ x ↔ v₀.toInt ≤ x ∧ ∀ v ∈ vs, v.toInt ≤ x := by
  induction vs using List.reverseRecOn with
  | nil => simp [largest]
  | append_singleton vs v ih =>
      have happ : largest v₀ (vs ++ [v]) = max (largest v₀ vs) v.toInt := by simp [largest]
      rw [happ, max_le_iff, ih]
      simp only [List.mem_append, List.mem_singleton, or_imp, forall_and, forall_eq, and_assoc]

/-- The order of the calls is that of an atomic fetch-and-max. -/
structure FetchMax {T : Type} (v₀ final : Int64) (order : List (Point T Int64 Int64)) : Prop where
  result : ∀ ps p qs, order = ps ++ p :: qs → p.result.toInt = largest v₀ (ps.map Point.arg)
  final : final.toInt = largest v₀ (order.map Point.arg)

section

variable {T : Type} [DecidableEq T] {prog : T → Nat → Option Int64} {v₀ : Int64} {n : Nat}
  (r : Run (machine myMax prog v₀) n)

theorem fetchMax_points : FetchMax v₀ (r.st n).value (points r calls n) where
  result ps p qs hps := by rw [result_eq r (Nat.le_refl n) hps, updates_myMax]
  final := by rw [value_eq r (Nat.le_refl n), updates_myMax]

theorem value_le_succ {k : Nat} (hk : k < n) :
    (r.st k).value.toInt ≤ (r.st (k + 1)).value.toInt := by
  cases htake : calls.takes (r.act k) with
  | none => rw [Step.value_eq (r.next k hk) htake]
  | some x =>
      obtain ⟨-, -, hval⟩ := take_run r hk htake
      rw [hval, update_myMax]
      exact le_max_left _ _

/-- The counter never decreases. -/
theorem value_mono {j k : Nat} (hjk : j ≤ k) (hk : k ≤ n) :
    (r.st j).value.toInt ≤ (r.st k).value.toInt :=
  r.induct_from (P := fun k => (r.st j).value.toInt ≤ (r.st k).value.toInt) le_rfl
    (fun _ _ hk _ ih => ih.trans (value_le_succ r hk)) hjk hk

end

/-! ## The values offered -/

/-- The number that round `i` of thread `id` offers. -/
theorem toInt_offer {iter num_thread : Nat} {id i : Nat} (hid : id < num_thread) (hi : i < iter)
    (h : iter * num_thread ≤ 2 ^ 63) :
    (offer num_thread id i).toInt = ((i * num_thread + id : Nat) : Int) := by
  have hlt : i * num_thread + id < 2 ^ 63 := by
    have := Nat.mul_le_mul_right num_thread (Nat.succ_le_of_lt hi)
    rw [Nat.succ_mul] at this
    omega
  have hofNat : offer num_thread id i = Int64.ofNat (i * num_thread + id) := by
    simp [offer, Int64.ofNat_add, Int64.ofNat_mul]
  rw [hofNat, Int64.toInt_ofNat_of_lt hlt]

/-- The threads together offer each number below `iter * num_thread` once. -/
theorem offers_perm (iter num_thread : Nat) :
    ((List.finRange num_thread).flatMap fun id =>
      (List.range iter).map fun i => i * num_thread + id.val).Perm
      (List.range (iter * num_thread)) := by
  refine (List.perm_ext_iff_of_nodup ?_ List.nodup_range).mpr fun x => ?_
  · refine List.nodup_flatMap.mpr ⟨fun id _ => ?_, ?_⟩
    · refine List.nodup_range.map fun i j hij => ?_
      have hpos : 0 < num_thread := id.pos
      exact Nat.eq_of_mul_eq_mul_right hpos (by simpa using hij)
    · refine (List.nodup_finRange num_thread).imp fun {id id'} hne x hx hx' => hne ?_
      obtain ⟨i, -, rfl⟩ := List.mem_map.mp hx
      obtain ⟨j, -, hj⟩ := List.mem_map.mp hx'
      have hmod := congrArg (· % num_thread) hj
      simp only [Nat.mul_add_mod_self_right, Nat.mod_eq_of_lt id.isLt,
        Nat.mod_eq_of_lt id'.isLt] at hmod
      exact Fin.ext hmod.symm
  · simp only [List.mem_flatMap, List.mem_finRange, true_and, List.mem_map, List.mem_range]
    constructor
    · rintro ⟨id, i, hi, rfl⟩
      have := Nat.mul_le_mul_right num_thread (Nat.succ_le_of_lt hi)
      rw [Nat.succ_mul] at this
      have := id.isLt
      omega
    · intro hx
      have hpos : 0 < num_thread := Nat.pos_of_ne_zero fun h => by simp [h] at hx
      refine ⟨⟨x % num_thread, Nat.mod_lt _ hpos⟩, x / num_thread, ?_, Nat.div_add_mod' _ _⟩
      exact (Nat.div_lt_iff_lt_mul hpos).mpr hx

/-- In an order of all calls of the workers each number below `iter * num_thread` is an
argument once. -/
theorem args_of_workers {num_thread iter n : Nat} (h : iter * num_thread ≤ 2 ^ 63)
    (r : Run (machine myMax (T := Fin num_thread) (workerMyMax iter) 0) n)
    (hfin : ∀ t, (r.st n).Finished (workerMyMax iter) t) :
    ((points r calls n).map fun p => p.arg.toInt).Perm
      ((List.range (iter * num_thread)).map fun x : Nat => (x : Int)) := by
  have hperm := (perm_of_finished (f := fun id => offer num_thread id) rfl r hfin).map Int64.toInt
  rw [List.map_map] at hperm
  refine hperm.trans ?_
  refine List.Perm.trans (.of_eq ?_) ((offers_perm iter num_thread).map fun x : Nat => (x : Int))
  simp only [List.map_flatMap, List.map_map]
  refine List.flatMap_congr fun id _ => List.map_congr_left fun i hi => ?_
  exact toInt_offer id.isLt (List.mem_range.mp hi) h

/-- The counter after `worker_my_max` of `num_thread` threads. -/
theorem max_of_workers {num_thread iter n : Nat} (hpos : 0 < iter * num_thread)
    (h : iter * num_thread ≤ 2 ^ 63)
    (r : Run (machine myMax (T := Fin num_thread) (workerMyMax iter) 0) n)
    (hfin : ∀ t, (r.st n).Finished (workerMyMax iter) t) :
    (r.st n).value.toInt = iter * num_thread - 1 := by
  have hmem : ∀ x : Int, x ∈ (points r calls n).map (fun p => p.arg.toInt) ↔
      ∃ k < iter * num_thread, (k : Int) = x := by
    intro x
    rw [(args_of_workers h r hfin).mem_iff]
    simp
  have hle : ∀ {x : Int}, largest 0 ((points r calls n).map Point.arg) ≤ x ↔
      0 ≤ x ∧ ∀ k : Nat, k < iter * num_thread → (k : Int) ≤ x := by
    intro x
    rw [largest_le_iff]
    refine and_congr (by simp) ⟨fun hx k hk => ?_, fun hx v hv => ?_⟩
    · obtain ⟨p, hp, hpk⟩ := List.mem_map.mp ((hmem k).mpr ⟨k, hk, rfl⟩)
      exact hpk ▸ hx p.arg (List.mem_map_of_mem hp)
    · obtain ⟨p, hp, rfl⟩ := List.mem_map.mp hv
      obtain ⟨k, hk, hkp⟩ := (hmem _).mp (List.mem_map_of_mem hp)
      exact hkp ▸ hx k hk
  rw [(fetchMax_points r).final]
  have hcast : ((iter * num_thread : Nat) : Int) = iter * num_thread := by push_cast; rfl
  refine le_antisymm (hle.mpr ⟨by omega, fun k hk => by omega⟩) ?_
  have := (hle.mp le_rfl).2 (iter * num_thread - 1) (by omega)
  omega

/-- `my_max` is a linearizable fetch-and-max.  Whatever calls the threads make, the
counter never decreases, and the calls can be ordered such that each returns the largest
of the initial value and the arguments before it, and the counter holds the largest of
all.  The order has the calls of each thread that took effect, in the thread's own order;
at an idle thread these are the calls it completed.  `worker_my_max` of `num_thread`
threads offers each number below `iter * num_thread` once, and leaves the last of them in
the counter. -/
theorem my_max_linearizable :
    (∀ {T : Type} [DecidableEq T] (prog : T → Nat → Option Int64) (v₀ : Int64) {n : Nat}
      (r : Run (machine myMax prog v₀) n),
        (∀ j k, j ≤ k → k ≤ n → (r.st j).value.toInt ≤ (r.st k).value.toInt) ∧
        ∃ order : List (Point T Int64 Int64),
          Linearization r calls order ∧
          (∀ t, ((order.filter (·.thread = t)).map fun p => some p.arg) =
            (List.range ((r.st n).effects t)).map (prog t)) ∧
          (∀ t, (r.st n).pc t = .idle → (r.st n).effects t = (r.st n).calls t) ∧
          FetchMax v₀ (r.st n).value order) ∧
    (∀ {num_thread iter n : Nat}
      (r : Run (machine myMax (T := Fin num_thread) (workerMyMax iter) 0) n),
      (∀ t, (r.st n).Finished (workerMyMax iter) t) → 0 < iter * num_thread →
      iter * num_thread ≤ 2 ^ 63 →
      (∃ order : List (Point (Fin num_thread) Int64 Int64),
        Linearization r calls order ∧
        (order.map fun p => p.arg.toInt).Perm
          ((List.range (iter * num_thread)).map fun x : Nat => (x : Int))) ∧
      (r.st n).value.toInt = iter * num_thread - 1) := by
  refine ⟨fun prog v₀ n r => ⟨fun j k hjk hk => value_mono r hjk hk, ?_⟩,
    fun r hfin hpos hle => ⟨?_, max_of_workers hpos hle r hfin⟩⟩
  · exact ⟨_, (linearizable r).points, fun t => args_eq r t (Nat.le_refl n),
      fun t ht => State.effects_of_idle ht, fetchMax_points r⟩
  · exact ⟨_, (linearizable r).points, args_of_workers hle r hfin⟩

/-- Two threads, two rounds.  Thread 0 wants to store 2 in place of 0, fails because
thread 1 stored 1 and then fails again because thread 1 stored 3, which it returns. -/
theorem my_max_linearizable_two :
    ∃ n, ∃ r : Run (machine myMax (T := Fin 2) (workerMyMax 2) 0) n,
      (∀ t, (r.st n).Finished (workerMyMax 2) t) ∧ (r.st n).retries 0 = 2 ∧
      (r.st n).value.toInt = 3 := by
  have : Inhabited (Act (Fin 2) Int64 Int64) := ⟨.step 0⟩
  let start : State (Fin 2) Int64 Int64 := ⟨0, fun _ => .idle, fun _ => 0, fun _ => 0⟩
  have h : ∃ as s, (machine myMax (T := Fin 2) (workerMyMax 2) 0).Exec start as s ∧
      (∀ t, s.Finished (workerMyMax 2) t) ∧ s.retries 0 = 2 := by
    refine ⟨_, _, .cons (.call (t := 0) rfl rfl) <| .cons (.loadDone (t := 0) rfl rfl) <|
      .cons (.ret (t := 0) rfl) <| .cons (.call (t := 0) rfl rfl) <|
      .cons (.loadGo (t := 0) rfl rfl) <|
      .cons (.call (t := 1) rfl rfl) <| .cons (.loadGo (t := 1) rfl rfl) <|
      .cons (.casOk (t := 1) rfl rfl) <| .cons (.ret (t := 1) rfl) <|
      .cons (.casFailGo (t := 0) rfl rfl) <|
      .cons (.call (t := 1) rfl rfl) <| .cons (.loadGo (t := 1) rfl rfl) <|
      .cons (.casOk (t := 1) rfl rfl) <| .cons (.ret (t := 1) rfl) <|
      .cons (.casFailDone (t := 0) rfl rfl) <| .cons (.ret (t := 0) rfl) .nil, ?_, rfl⟩
    intro t
    fin_cases t
    · exact ⟨rfl, rfl⟩
    · exact ⟨rfl, rfl⟩
  obtain ⟨as, s, hexec, hfin, hretries⟩ := h
  obtain ⟨r, -, hlast, -⟩ := hexec.exists_run rfl
  rw [← hlast] at hfin hretries
  exact ⟨as.length, r, hfin, hretries,
    (my_max_linearizable.2 r hfin (by norm_num) (by norm_num)).2⟩

end Cas
