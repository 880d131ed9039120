import SystemsDrills.Lib.Monitor
import Mathlib.Algebra.BigOperators.Fin

/-!
# Progress in a monitor

As long as some thread is in a call and does not sleep, such a thread can move: this thread
itself, or the owner of the mutex that it waits for (`exists_step_of_awake`).

Each move has a price.  A thread starts a call with a weight and pays one unit of it for each of
its moves.  A signal pays two units more, which are the weight of the thread it wakes
(`Step.weight_lt`).  So the number of moves is bounded by the number of calls, apart from the
wakeups without a signal.
-/

namespace Monitor

open Transition

variable {D C O R T : Type} {M : Operations D C O R} {d₀ : D}

/-- The thread that moves. -/
def Act.thread : Act T O R → T
  | .call t _ | .step t | .pass t _ | .ret t _ _ | .refused t _ => t

/-- The thread is in a call and does not sleep. -/
def Pc.Awake : Pc D O R → Prop
  | .idle | .asleep _ => False
  | .lock _ | .test _ | .woken _ | .body _ _ _ | .unlock _ _ | .refuse _ => True

variable [DecidableEq T] {s s' : State T D O R} {a : Act T O R} {t : T}

/-- The owner of the mutex can always move. -/
theorem exists_step_of_holds (ht : (s.pc t).Holds) : ∃ a s', Step M s a s' ∧ a.thread = t := by
  cases hpc : s.pc t with
  | test op =>
      by_cases hb : M.blocked op s.data
      · cases hw : M.waits op with
        | true => exact ⟨_, _, .wait hpc hb hw, rfl⟩
        | false => exact ⟨_, _, .giveUp hpc hb hw, rfl⟩
      · exact ⟨_, _, .pass hpc hb, rfl⟩
  | body op todo r =>
      cases todo with
      | cons f todo => exact ⟨_, _, .body hpc, rfl⟩
      | nil =>
          by_cases hu : ∃ u op', s.pc u = .asleep op' ∧ M.cond op' = M.signal op
          · obtain ⟨u, op', hu, hc⟩ := hu
            exact ⟨_, _, .signalOne hpc hu hc, rfl⟩
          · exact ⟨_, _, .signalNone hpc fun u op' h hc => hu ⟨u, op', h, hc⟩, rfl⟩
  | unlock op r => exact ⟨_, _, .unlock hpc, rfl⟩
  | refuse op => exact ⟨_, _, .refuse hpc, rfl⟩
  | idle | lock op | asleep op | woken op => simp [hpc, Pc.Holds] at ht

omit [DecidableEq T] in
theorem Pc.Holds.awake {p : Pc D O R} (h : p.Holds) : p.Awake := by
  cases p with
  | idle | asleep op => exact h.elim
  | _ => trivial

/-- As long as some thread is in a call and does not sleep, such a thread can move. -/
theorem exists_step_of_awake (hx : s.Excl) (ht : (s.pc t).Awake) :
    ∃ a s', Step M s a s' ∧ (s.pc a.thread).Awake := by
  cases hm : s.mutex with
  | some u =>
      have hu := (hx u).mpr hm
      obtain ⟨a, s', hstep, rfl⟩ := exists_step_of_holds (M := M) hu
      exact ⟨a, s', hstep, hu.awake⟩
  | none =>
      by_cases hholds : (s.pc t).Holds
      · obtain ⟨a, s', hstep, rfl⟩ := exists_step_of_holds (M := M) hholds
        exact ⟨a, s', hstep, ht⟩
      · cases hpc : s.pc t with
        | lock op => exact ⟨_, _, .lock hpc hm, ht⟩
        | woken op => exact ⟨_, _, .relock hpc hm, ht⟩
        | idle | asleep op => simp [hpc, Pc.Awake] at ht
        | test op | body op todo r | unlock op r | refuse op => simp [hpc, Pc.Holds] at hholds

/-! ## What a move leaves alone -/

/-- A move inside of the calls leaves each thread in its call. -/
theorem Step.op_eq (h : Step M s a s') (hcall : ∀ t op, a ≠ .call t op)
    (hret : ∀ t op r, a ≠ .ret t op r) (hrefused : ∀ t op, a ≠ .refused t op) (u : T) :
    (s'.pc u).op = (s.pc u).op := by
  have keep : ∀ {t p}, p.op = (s.pc t).op → (Function.update s.pc t p u).op = (s.pc u).op :=
    fun hp => op_update hp u
  cases h with
  | call _ => exact absurd rfl (hcall _ _)
  | lock hpc _ => exact keep (by rw [hpc]; rfl)
  | relock hpc _ => exact keep (by rw [hpc]; rfl)
  | wait hpc _ _ => exact keep (by rw [hpc]; rfl)
  | giveUp hpc _ _ => exact keep (by rw [hpc]; rfl)
  | pass hpc _ => exact keep (by rw [hpc]; rfl)
  | body hpc => exact keep (by rw [hpc]; rfl)
  | signalOne hpc hu _ =>
      have hne := State.ne_of_pc hpc hu (by simp)
      refine (op_update ?_ u).trans (keep (by rw [hu]; rfl))
      rw [State.goto_pc, Function.update_of_ne hne, hpc]
      rfl
  | signalNone hpc _ => exact keep (by rw [hpc]; rfl)
  | spurious hpc => exact keep (by rw [hpc]; rfl)
  | unlock _ => exact absurd rfl (hret _ _ _)
  | refuse _ => exact absurd rfl (hrefused _ _)

theorem refuse_update {pc : T → Pc D O R} (h : ∀ t op, pc t ≠ .refuse op) {u : T} {p : Pc D O R}
    (hp : ∀ op, p ≠ .refuse op) (t : T) (op : O) : Function.update pc u p t ≠ .refuse op := by
  rw [Function.update_apply]
  split
  · exact hp op
  · exact h t op

/-- Operations that wait do not give up. -/
theorem waits_invariant (hw : ∀ op, M.waits op = true) :
    (machine (T := T) M d₀).Invariant fun s => ∀ t op, s.pc t ≠ .refuse op where
  start := by
    rintro s rfl t op h
    cases h
  next := by
    intro s a s' _ hs h
    cases h with
    | giveUp _ _ hop => simp [hw] at hop
    | signalOne _ _ _ => exact refuse_update (refuse_update hs (by simp)) (by simp)
    | _ => exact refuse_update hs (by simp)

/-! ## The weight -/

section Weight

variable {b : Nat}

/-- What the thread has still to pay in its call, if a section has at most `b` updates. -/
def Pc.weight (b : Nat) : Pc D O R → Nat
  | .idle => 0
  | .unlock _ _ | .refuse _ => 1
  | .body _ todo _ => todo.length + 4
  | .asleep _ => b + 4
  | .test _ => b + 5
  | .lock _ | .woken _ => b + 6

/-- What is added to the weight of all threads by the move of one: a call brings its weight, and a
wakeup without a signal the price of a test. -/
def Pc.charge (b : Nat) : Pc D O R → Nat
  | .idle => b + 7
  | .asleep _ => 3
  | .lock _ | .test _ | .woken _ | .body _ _ _ | .unlock _ _ | .refuse _ => 0

/-- A thread that moves in its call pays for itself, but for a sleeper. -/
theorem Step.charge_eq_zero (h : Step M s a s') (hcall : ∀ t op, a ≠ .call t op)
    (hawake : ∀ op, s.pc a.thread ≠ .asleep op) : (s.pc a.thread).charge b = 0 := by
  cases hpc : s.pc a.thread with
  | idle =>
      cases h with
      | call _ => exact absurd rfl (hcall _ _)
      | _ => simp_all [Act.thread]
  | asleep op => exact absurd hpc (hawake op)
  | _ => rfl

variable [Fintype T]

/-- What all threads have still to pay. -/
def State.weight (b : Nat) (s : State T D O R) : Nat := ∑ t, (s.pc t).weight b

theorem sum_weight_update (pc : T → Pc D O R) (t : T) (p : Pc D O R) :
    (∑ u, (Function.update pc t p u).weight b) + (pc t).weight b =
      (∑ u, (pc u).weight b) + p.weight b := by
  have hsum := sum_add_entry (f := fun u => (Function.update pc t p u).weight b)
    (g := fun u => (pc u).weight b) (Finset.mem_univ t) fun u hu => by rw [Function.update_of_ne hu]
  rwa [Function.update_self] at hsum

/-- A thread that moves alone and pays. -/
theorem weight_lt_of_update {p p' : Pc D O R} (ht : s.pc t = p)
    (hpc : s'.pc = Function.update s.pc t p') (hp : p'.weight b < p.weight b + p.charge b) :
    s'.weight b < s.weight b + (s.pc t).charge b := by
  have hsum := sum_weight_update (b := b) s.pc t p'
  rw [← hpc] at hsum
  rw [ht] at hsum ⊢
  simp only [State.weight]
  omega

/-- Each move is paid for. -/
theorem Step.weight_lt (hb : ∀ op, (M.body op).length ≤ b) (h : Step M s a s') :
    s'.weight b < s.weight b + (s.pc a.thread).charge b := by
  cases h with
  | call hpc => exact weight_lt_of_update hpc rfl (by simp [Pc.weight, Pc.charge])
  | lock hpc _ => exact weight_lt_of_update hpc rfl (by simp [Pc.weight, Pc.charge])
  | relock hpc _ => exact weight_lt_of_update hpc rfl (by simp [Pc.weight, Pc.charge])
  | wait hpc _ _ => exact weight_lt_of_update hpc rfl (by simp [Pc.weight, Pc.charge])
  | giveUp hpc _ _ => exact weight_lt_of_update hpc rfl (by simp [Pc.weight, Pc.charge])
  | pass hpc _ =>
      refine weight_lt_of_update hpc rfl ?_
      have := hb ‹O›
      simp only [Pc.weight, Pc.charge]
      omega
  | body hpc => exact weight_lt_of_update hpc rfl (by simp [Pc.weight, Pc.charge])
  | signalOne hpc hu _ =>
      rename_i op' op t u r _
      -- The two units that the sleeper gets are paid by the signal.
      have hne := State.ne_of_pc hpc hu (by simp)
      have hwake := sum_weight_update (b := b) s.pc u (.woken op')
      have hpay := sum_weight_update (b := b) (Function.update s.pc u (.woken op')) t (.unlock op r)
      rw [Function.update_of_ne hne, hpc] at hpay
      rw [hu] at hwake
      simp only [State.weight, State.goto, Act.thread, hpc, Pc.weight, Pc.charge, List.length_nil]
        at hwake hpay ⊢
      omega
  | signalNone hpc _ => exact weight_lt_of_update hpc rfl (by simp [Pc.weight, Pc.charge])
  | spurious hpc => exact weight_lt_of_update hpc rfl (by simp [Pc.weight, Pc.charge])
  | unlock hpc => exact weight_lt_of_update hpc rfl (by simp [Pc.weight, Pc.charge])
  | refuse hpc => exact weight_lt_of_update hpc rfl (by simp [Pc.weight, Pc.charge])

end Weight

end Monitor
