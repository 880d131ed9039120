import SystemsDrills.Cas.MyAdd
import SystemsDrills.Cas.MyMax

/-!
# The loops of `my_add` and `my_max` are lock-free

A single call of `concurrency/04-cas/cas.c` may fail again and again, but each time because another
call succeeded.  So the workers come to their end, and the sum of the retries that `run_threads`
returns is bounded.
-/

namespace Cas

open Transition CasLoop

/-- The threads make progress together: a thread that has not finished can always move, the steps are
bounded by the calls that were started, and the failed exchanges by those that succeeded.  Exchanges
that fail for no reason are counted apart. -/
structure LockFree {T : Type} [DecidableEq T] [Fintype T] {next : Int64 → Int64 → Option Int64}
    {prog : T → Nat → Option Int64} {v₀ : Int64} {n : Nat} (r : Run (machine next prog v₀) n) :
    Prop where
  moves : ∀ t, ¬ (r.st n).Finished prog t →
    ∃ a s', Step next prog (r.st n) a s' ∧ a.thread = t ∧ ¬ (r.st n).Spurious a
  steps : n ≤ (Fintype.card T + 3) * r.count (fun _ a => a.starts) n + r.count State.Spurious n
  retries : ∑ t, (r.st n).retries t ≤
    (Fintype.card T - 1) * r.count State.Succeeds n + r.count State.Spurious n

theorem lockFree {T : Type} [DecidableEq T] [Fintype T] {next : Int64 → Int64 → Option Int64}
    {prog : T → Nat → Option Int64} {v₀ : Int64} {n : Nat} (r : Run (machine next prog v₀) n) :
    LockFree r :=
  ⟨fun _ ht => exists_step ht, length_le r, retries_le r⟩

/-- What `run_threads` adds up: the retries of all threads. -/
def totalRetries {num_thread : Nat} (s : State (Fin num_thread) Int64 Int64) : Nat :=
  ∑ t, s.retries t

/-- A run of `num_thread` threads with `iter` calls each. -/
theorem LockFree.of_loops {num_thread iter n : Nat} {next : Int64 → Int64 → Option Int64}
    {f : Fin num_thread → Nat → Int64}
    {r : Run (machine next (fun t => upTo iter (f t)) 0) n} (h : LockFree r) :
    n ≤ (num_thread + 3) * (num_thread * iter) + r.count State.Spurious n ∧
      totalRetries (r.st n) ≤ (num_thread - 1) * (num_thread * iter) + r.count State.Spurious n := by
  have hstarts := starts_le r
  have hsucceeds := succeeds_le r
  have hsteps := h.steps
  have hretries := h.retries
  rw [Fintype.card_fin] at hstarts hsucceeds hsteps hretries
  exact ⟨hsteps.trans (Nat.add_le_add_right (Nat.mul_le_mul_left _ hstarts) _),
    hretries.trans (Nat.add_le_add_right (Nat.mul_le_mul_left _ hsucceeds) _)⟩

/-- Whatever calls of `my_add` or of `my_max` the threads make, they are lock-free.  The runs of
`worker_my_add` and of `worker_my_max` with `num_thread` threads end after at most
`(num_thread + 3) * num_thread * iter` steps, and `run_threads` returns at most
`(num_thread - 1) * num_thread * iter`, where each exchange that fails for no reason is one more. -/
theorem cas_lock_free :
    (∀ {T : Type} [DecidableEq T] [Fintype T] (prog : T → Nat → Option Int64) (v₀ : Int64) {n : Nat},
      (∀ r : Run (machine myAdd prog v₀) n, LockFree r) ∧
      ∀ r : Run (machine myMax prog v₀) n, LockFree r) ∧
    (∀ {num_thread iter n : Nat}
      (r : Run (machine myAdd (T := Fin num_thread) (workerMyAdd iter) 0) n),
      n ≤ (num_thread + 3) * (num_thread * iter) + r.count State.Spurious n ∧
      totalRetries (r.st n) ≤ (num_thread - 1) * (num_thread * iter) + r.count State.Spurious n) ∧
    (∀ {num_thread iter n : Nat}
      (r : Run (machine myMax (T := Fin num_thread) (workerMyMax iter) 0) n),
      n ≤ (num_thread + 3) * (num_thread * iter) + r.count State.Spurious n ∧
      totalRetries (r.st n) ≤ (num_thread - 1) * (num_thread * iter) + r.count State.Spurious n) :=
  ⟨fun _ _ _ => ⟨lockFree, lockFree⟩,
    fun r => LockFree.of_loops (f := fun _ _ => 1) (lockFree r),
    fun {num_thread _ _} r => LockFree.of_loops (f := fun id => offer num_thread id) (lockFree r)⟩

end Cas
