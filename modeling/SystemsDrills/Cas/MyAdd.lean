import SystemsDrills.Lib.CasLoop

/-!
# Fetch-and-add by compare-and-exchange

`my_add` and `worker_my_add` of `concurrency/04-cas/cas.c`.  A call loads the counter,
adds `v` to the snapshot and tries to store the sum by a weak compare-and-exchange,
which may fail for no reason.  A failed exchange refreshes the snapshot and the sum is
computed again.

This is the loop of `SystemsDrills.Lib.CasLoop` that always has something to store.
The sums are those of a `long`.  A sum of a stale snapshot may wrap, but it is never
stored.
-/

namespace Cas

open Transition CasLoop

/-- What `my_add` wants to store in place of the snapshot: it goes on until the
exchange succeeds. -/
def myAdd (v p_snapshot : Int64) : Option Int64 := some (p_snapshot + v)

/-- The calls of `worker_my_add`. -/
def workerMyAdd (iter : Nat) {T : Type} (_ : T) : Nat → Option Int64 := upTo iter fun _ => 1

/-- The initial value and the sum of the arguments, which a `long` may not hold. -/
def partialSum (v₀ : Int64) (vs : List Int64) : Int := v₀.toInt + (vs.map Int64.toInt).sum

/-- The number fits a `long`. -/
def InLong (x : Int) : Prop := -2 ^ 63 ≤ x ∧ x < 2 ^ 63

@[simp] theorem partialSum_nil (v₀ : Int64) : partialSum v₀ [] = v₀.toInt := by simp [partialSum]

theorem partialSum_append (v₀ : Int64) (vs : List Int64) (v : Int64) :
    partialSum v₀ (vs ++ [v]) = partialSum v₀ vs + v.toInt := by
  simp [partialSum, add_assoc]

theorem bmod_of_inLong {x : Int} (h : InLong x) : x.bmod (2 ^ 64) = x :=
  Int.bmod_eq_of_le (by have := h.1; omega) (by have := h.2; omega)

/-- The counter has the sum of the calls, up to a wrap. -/
theorem updates_myAdd (v₀ : Int64) (vs : List Int64) :
    (updates myAdd v₀ vs).toInt = (partialSum v₀ vs).bmod (2 ^ 64) := by
  induction vs using List.reverseRecOn with
  | nil =>
      have h := v₀.toInt_lt
      have h' := v₀.le_toInt
      rw [bmod_of_inLong ⟨by simpa using h', by simpa using h⟩]
      simp [updates]
  | append_singleton vs v ih =>
      have happ : updates myAdd v₀ (vs ++ [v]) = updates myAdd v₀ vs + v := by
        simp [updates, update, myAdd]
      rw [happ, Int64.toInt_add, ih, partialSum_append, Int.bmod_add_bmod]

theorem updates_myAdd_of_inLong {v₀ : Int64} {vs : List Int64} (h : InLong (partialSum v₀ vs)) :
    (updates myAdd v₀ vs).toInt = partialSum v₀ vs := by
  rw [updates_myAdd, bmod_of_inLong h]

/-- The order of the calls is that of an atomic fetch-and-add. -/
structure FetchAdd {T : Type} (v₀ final : Int64) (order : List (Point T Int64 Int64)) : Prop where
  result : ∀ ps p qs, order = ps ++ p :: qs → p.result.toInt = partialSum v₀ (ps.map Point.arg)
  final : final.toInt = partialSum v₀ (order.map Point.arg)

section

variable {T : Type} [DecidableEq T] {prog : T → Nat → Option Int64} {v₀ : Int64} {n : Nat}
  (r : Run (machine myAdd prog v₀) n)

theorem fetchAdd_points
    (h : ∀ ps, ps <+: points r calls n → InLong (partialSum v₀ (ps.map Point.arg))) :
    FetchAdd v₀ (r.st n).value (points r calls n) where
  result ps p qs hps := by
    rw [result_eq r (Nat.le_refl n) hps]
    exact updates_myAdd_of_inLong (h ps ⟨_, hps.symm⟩)
  final := by
    rw [value_eq r (Nat.le_refl n)]
    exact updates_myAdd_of_inLong (h _ List.prefix_rfl)

end

/-- The counter after `worker_my_add` of `num_thread` threads. -/
theorem counter_of_workers {num_thread iter n : Nat}
    (r : Run (machine myAdd (T := Fin num_thread) (workerMyAdd iter) 0) n)
    (h : ∀ t, (r.st n).Finished (workerMyAdd iter) t) :
    (r.st n).value.toInt = ((iter * num_thread : Nat) : Int).bmod (2 ^ 64) := by
  have hperm := perm_of_finished (f := fun _ _ => (1 : Int64)) rfl r h
  have hsum : (((points r calls n).map Point.arg).map Int64.toInt).sum = iter * num_thread := by
    refine (hperm.map Int64.toInt).sum_eq.trans ?_
    simp [List.flatMap_def, mul_comm]
  rw [value_eq r (Nat.le_refl n), updates_myAdd, partialSum, hsum]
  simp

/-- `my_add` is a linearizable fetch-and-add.  Any threads that run any sequences of
calls can be ordered such that, as long as no partial sum in that order leaves the range
of `long`, each call returns the sum of those before it and the counter holds the sum of
all.  The order has the calls of each thread that took effect, in the thread's own order;
at an idle thread these are the calls it completed.  After `worker_my_add` of
`num_thread` threads the counter is `iter * num_thread`. -/
theorem my_add_linearizable :
    (∀ {T : Type} [DecidableEq T] (prog : T → Nat → Option Int64) (v₀ : Int64) {n : Nat}
      (r : Run (machine myAdd prog v₀) n), ∃ order : List (Point T Int64 Int64),
        Linearization r calls order ∧
        (∀ t, ((order.filter (·.thread = t)).map fun p => some p.arg) =
          (List.range ((r.st n).effects t)).map (prog t)) ∧
        (∀ t, (r.st n).pc t = .idle → (r.st n).effects t = (r.st n).calls t) ∧
        ((∀ ps, ps <+: order → InLong (partialSum v₀ (ps.map Point.arg))) →
          FetchAdd v₀ (r.st n).value order)) ∧
    (∀ {num_thread iter n : Nat}
      (r : Run (machine myAdd (T := Fin num_thread) (workerMyAdd iter) 0) n),
      (∀ t, (r.st n).Finished (workerMyAdd iter) t) → iter * num_thread < 2 ^ 63 →
      (r.st n).value.toInt = iter * num_thread) := by
  refine ⟨fun prog v₀ n r => ?_, fun r hfin hlt => ?_⟩
  · exact ⟨points r calls n, (linearizable r).points, fun t => args_eq r t (Nat.le_refl n),
      fun t ht => State.effects_of_idle ht, fetchAdd_points r⟩
  · rw [counter_of_workers r hfin, bmod_of_inLong ⟨by omega, by exact_mod_cast hlt⟩]
    push_cast
    rfl

/-- Two threads that load the same value: the exchange of the second one fails because
of the first, then for no reason, then succeeds. -/
theorem my_add_linearizable_two :
    ∃ n, ∃ r : Run (machine myAdd (T := Fin 2) (workerMyAdd 1) 0) n,
      (∀ t, (r.st n).Finished (workerMyAdd 1) t) ∧ (r.st n).retries 1 = 2 ∧
      (r.st n).value.toInt = 2 := by
  have : Inhabited (Act (Fin 2) Int64 Int64) := ⟨.step 0⟩
  let start : State (Fin 2) Int64 Int64 := ⟨0, fun _ => .idle, fun _ => 0, fun _ => 0⟩
  have h : ∃ as s, (machine myAdd (T := Fin 2) (workerMyAdd 1) 0).Exec start as s ∧
      (∀ t, s.Finished (workerMyAdd 1) t) ∧ s.retries 1 = 2 := by
    refine ⟨_, _, .cons (.call (t := 0) rfl rfl) <| .cons (.call (t := 1) rfl rfl) <|
      .cons (.loadGo (t := 0) rfl rfl) <| .cons (.loadGo (t := 1) rfl rfl) <|
      .cons (.casOk (t := 0) rfl rfl) <| .cons (.casFailGo (t := 1) rfl rfl) <|
      .cons (.casFailGo (t := 1) rfl rfl) <| .cons (.casOk (t := 1) rfl rfl) <|
      .cons (.ret (t := 0) rfl) <| .cons (.ret (t := 1) rfl) .nil, ?_, rfl⟩
    intro t
    fin_cases t
    · exact ⟨rfl, rfl⟩
    · exact ⟨rfl, rfl⟩
  obtain ⟨as, s, hexec, hfin, hretries⟩ := h
  obtain ⟨r, -, hlast, -⟩ := hexec.exists_run rfl
  rw [← hlast] at hfin hretries
  exact ⟨as.length, r, hfin, hretries, my_add_linearizable.2 r hfin (by norm_num)⟩

end Cas
