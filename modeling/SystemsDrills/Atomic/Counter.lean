import SystemsDrills.Lib.Exchange
import SystemsDrills.Lib.Transition
import Mathlib.Algebra.BigOperators.Fin
import Mathlib.Algebra.BigOperators.Ring.Finset

/-!
# The atomic counter

`worker_explicit`, `worker_generic` and `main` of `concurrency/02-atomic/atomic.c`.  Each thread
increments an `atomic_llong` `iter` times, relaxed or with the default order.  A relaxed increment tells
its thread nothing about the others, but it goes right behind the increment that it finds.  So none is
lost, and `main`, which has joined the threads and knows what they know, finds them all.

`main` takes for `iter` what `atol` makes of its argument and refuses only 0.  With a negative number no
loop runs and the assertion at the end fails.
-/

namespace Atomic

open Transition Views

/-- The worker that `argv[3]` selects. -/
inductive Worker where
  /-- `worker_explicit`, which is relaxed. -/
  | explicit
  /-- `worker_generic`. -/
  | generic
deriving DecidableEq, Repr

/-- The counter, and the loop variable of each thread. -/
structure State (T : Type) where
  mem : Memory Unit T Int64
  i : T → Nat

variable {T : Type} [DecidableEq T]

/-- The increment of `arg->cnt` by `t`, which found `msg`. -/
def Worker.fetchAdd (fn : Worker) (mem : Memory Unit T Int64) (t : T) (msg : Msg Unit T Int64) :
    Memory Unit T Int64 :=
  match fn with
  | .explicit => mem.relaxedExchange t () msg (msg.val + 1)
  | .generic => mem.exchange t () msg (msg.val + 1)

/-- A round of the loop of thread `t`. -/
inductive Step (fn : Worker) (iter : Int) : State T → T → State T → Prop where
  | fetchAdd :
      (s.i t : Int) < iter → s.mem.Last () msg →
      Step fn iter s t
        { mem := fn.fetchAdd s.mem t msg
          i := Function.update s.i t (s.i t + 1) }

/-- The threads of type `T` run `fn` on a counter that starts at 0. -/
def workers (fn : Worker) (iter : Int) (T : Type) [DecidableEq T] : System (State T) T where
  init s := s = ⟨.init fun _ => 0, fun _ => 0⟩
  step := Step fn iter

/-! ## One increment -/

variable (fn : Worker) (mem : Memory Unit T Int64) (t : T) (msg : Msg Unit T Int64)

theorem Worker.value_fetchAdd : (fn.fetchAdd mem t msg).value () = msg.val + 1 := by
  cases fn with
  | explicit => exact Memory.value_relaxedExchange mem t () msg _
  | generic => exact Memory.value_exchange mem t () msg _

/-- The thread knows its own increment. -/
theorem Worker.latest_fetchAdd : (fn.fetchAdd mem t msg).Latest t () := by
  cases fn with
  | explicit => exact Memory.latest_relaxedExchange mem t () msg _
  | generic => exact Memory.latest_exchange mem t () msg _

/-! ## The counter -/

variable {fn : Worker} {iter : Int} {s s' : State T} {t : T} [Fintype T]

/-- The last store has the number of increments, and some thread knows it. -/
structure State.Inv (iter : Int) (s : State T) : Prop where
  le : ∀ t, s.i t ≤ iter.toNat
  value : s.mem.value () = Int64.ofNat (∑ t, s.i t)
  known : ∃ t, s.mem.Latest t ()

theorem State.Inv.step (h : s.Inv iter) (hstep : Step fn iter s t s') : s'.Inv iter := by
  cases hstep with
  | @fetchAdd msg hi hlast =>
      refine ⟨fun u => ?_, ?_, ⟨t, fn.latest_fetchAdd s.mem t msg⟩⟩
      · show Function.update s.i t (s.i t + 1) u ≤ iter.toNat
        by_cases hu : u = t
        · subst hu
          rw [Function.update_self]
          exact Int.lt_toNat.mpr hi
        · rw [Function.update_of_ne hu]
          exact h.le u
      · have hsum := sum_add_entry (f := Function.update s.i t (s.i t + 1)) (Finset.mem_univ t)
          fun u hu => Function.update_of_ne hu _ s.i
        rw [Function.update_self] at hsum
        have hsucc : ∑ u, Function.update s.i t (s.i t + 1) u = ∑ u, s.i u + 1 := by omega
        rw [fn.value_fetchAdd, hsucc, ← hlast.value_eq, h.value, Int64.ofNat_add]
        rfl

theorem inv_invariant [Nonempty T] (fn : Worker) (iter : Int) :
    (workers fn iter T).Invariant (State.Inv iter) where
  start := by
    rintro s rfl
    refine ⟨fun _ => Nat.zero_le _, ?_, ⟨Classical.arbitrary T, Nat.le_refl 1⟩⟩
    rw [Finset.sum_const_zero]
    rfl
  next _ _ _ _ ih h := ih.step h

/-- When the threads have finished and `main` has joined them, its load finds the number of all
increments.  The assertion of `main`, unless its product overflows, holds if and only if `iter` is not
negative. -/
theorem counter_exact {n : Nat} {s : State (Fin n)} (hn : 0 < n)
    (hs : (workers fn iter (Fin n)).Reachable s) (hdone : ∀ t, ¬ (s.i t : Int) < iter)
    {v : View Unit (Fin n)} (hv : ∀ t, s.mem.view t ≤ v) {j : Nat}
    {msg : Msg Unit (Fin n) Int64} (hj : v (.store ()) ≤ j)
    (hmsg : (s.mem.hist ())[j]? = some msg) :
    msg.val = Int64.ofNat (iter.toNat * n) ∧
      (-2 ^ 63 ≤ iter * n ∧ iter * n < 2 ^ 63 → (msg.val.toInt = iter * n ↔ 0 ≤ iter)) := by
  have : Nonempty (Fin n) := ⟨⟨0, hn⟩⟩
  have hinv := (inv_invariant fn iter).reachable hs
  obtain ⟨t, ht⟩ := hinv.known
  have hall : (s.mem.hist ()).length ≤ v (.store ()) + 1 :=
    Nat.le_trans ht (Nat.succ_le_succ (hv t _))
  have hi : ∀ t, s.i t = iter.toNat := fun t =>
    le_antisymm (hinv.le t) (Nat.le_of_not_lt fun hlt => hdone t (Int.lt_toNat.mp hlt))
  have hval : msg.val = Int64.ofNat (iter.toNat * n) := by
    rw [← (Memory.last_of_length_le hall hj hmsg).value_eq, hinv.value,
      Finset.sum_congr rfl fun t _ => hi t, Finset.sum_const, Finset.card_univ, Fintype.card_fin,
      smul_eq_mul, Nat.mul_comm]
  refine ⟨hval, fun hfits => ?_⟩
  rw [hval, Int64.toInt_ofNat']
  by_cases hiter : 0 ≤ iter
  · have hprod : ((iter.toNat * n : Nat) : Int) = iter * n := by
      rw [Nat.cast_mul, Int.toNat_of_nonneg hiter]
    have hsize : Int64.size = 2 ^ 64 := rfl
    rw [hprod, hsize, Int.bmod_eq_of_le (by omega) (by omega)]
    exact ⟨fun _ => hiter, fun _ => rfl⟩
  · -- No loop runs.
    have hneg : iter * n < 0 := Int.mul_neg_of_neg_of_pos (not_le.mp hiter) (by exact_mod_cast hn)
    rw [Int.toNat_of_nonpos (not_le.mp hiter).le, Nat.zero_mul]
    refine ⟨fun heq => absurd heq ?_, fun hle => absurd hle hiter⟩
    rw [Nat.cast_zero, Int.zero_bmod]
    exact hneg.ne'

/-- Two relaxed increments by different threads, neither of which knows of the other one. -/
theorem counter_exact_two :
    ∃ s : State (Fin 2), (workers .explicit 1 (Fin 2)).Reachable s ∧
      (s.mem.view 0 (.store ()) = 1 ∧ s.mem.view 1 (.store ()) = 2) ∧
      ∀ v, (∀ t, s.mem.view t ≤ v) → ∀ j msg, v (.store ()) ≤ j → (s.mem.hist ())[j]? = some msg →
        msg.val = 2 ∧ msg.val.toInt = 1 * (2 : Nat) := by
  have h0 : (workers .explicit 1 (Fin 2)).Reachable ⟨.init fun _ => 0, fun _ => 0⟩ := .init rfl
  have h1 := h0.step (Step.fetchAdd (t := 0) (by decide) rfl)
  have h2 := h1.step (Step.fetchAdd (t := 1) (by decide) rfl)
  refine ⟨_, h2, by decide, fun v hv j msg hj hmsg => ?_⟩
  obtain ⟨hval, hassert⟩ := counter_exact (by decide) h2 (by decide) hv hj hmsg
  exact ⟨hval, (hassert (by decide)).mpr (by decide)⟩

end Atomic
