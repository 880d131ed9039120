import SystemsDrills.Lib.Linearization

/-!
# Updates by a compare-and-exchange loop

A call with argument `i` loads a shared variable into a local snapshot `s`.  As long
as `next i s` is some new value, it tries to exchange `s` for that value.  An exchange
that fails puts the present value into the snapshot, and the loop tests again.  It may
also fail although the snapshot is the present value.  The call returns the snapshot.

Such a call takes effect at one step: the exchange that succeeds, or the load or
failed exchange whose value needs no update.  Its result is the value of the variable
at that step, and the variable then is `update i` of it.  So the calls linearize, in
the order of these steps, to an atomic fetch-and-update (`linearizable`, `value_eq`,
`result_eq`).

Thread `t` makes the calls `prog t 0`, `prog t 1`, and so on, as long as there are
any.  At the end every call has taken effect once (`args_eq`).
-/

namespace CasLoop

open Transition

variable {T : Type} {I V : Type}

/-- Where a thread is, with its argument and its snapshot. -/
inductive Pc (I V : Type) where
  | idle
  | load (i : I)
  /-- Before the exchange of the snapshot for `new`. -/
  | cas (i : I) (snapshot new : V)
  | ret (i : I) (snapshot : V)
deriving DecidableEq, Repr

structure State (T I V : Type) where
  value : V
  pc : T → Pc I V
  /-- How many exchanges of each thread failed. -/
  retries : T → Nat
  /-- How many calls of each thread returned. -/
  calls : T → Nat

inductive Act (T I V : Type) where
  | call (t : T) (i : I)
  /-- A step after which the call goes on. -/
  | step (t : T)
  /-- The step that decides the result. -/
  | take (t : T) (i : I) (result : V)
  | ret (t : T) (i : I) (result : V)
deriving DecidableEq, Repr

namespace State

@[simps] def setValue (s : State T I V) (v : V) : State T I V := { s with value := v }

variable [DecidableEq T]

@[simps] def goto (s : State T I V) (t : T) (p : Pc I V) : State T I V :=
  { s with pc := Function.update s.pc t p }

@[simps] def retry (s : State T I V) (t : T) : State T I V :=
  { s with retries := Function.update s.retries t (s.retries t + 1) }

@[simps] def finish (s : State T I V) (t : T) : State T I V :=
  { s with calls := Function.update s.calls t (s.calls t + 1) }

end State

variable [DecidableEq T] (next : I → V → Option V) (prog : T → Nat → Option I)

inductive Step : State T I V → Act T I V → State T I V → Prop where
  | call :
      s.pc t = .idle → prog t (s.calls t) = some i →
      Step s (.call t i) (s.goto t (.load i))
  | loadGo :
      s.pc t = .load i → next i s.value = some new →
      Step s (.step t) (s.goto t (.cas i s.value new))
  | loadDone :
      s.pc t = .load i → next i s.value = none →
      Step s (.take t i s.value) (s.goto t (.ret i s.value))
  | casOk :
      s.pc t = .cas i snapshot new → s.value = snapshot →
      Step s (.take t i snapshot) ((s.setValue new).goto t (.ret i snapshot))
  | casFailGo :
      s.pc t = .cas i snapshot new → next i s.value = some new' →
      Step s (.step t) ((s.retry t).goto t (.cas i s.value new'))
  | casFailDone :
      s.pc t = .cas i snapshot new → next i s.value = none →
      Step s (.take t i s.value) ((s.retry t).goto t (.ret i s.value))
  | ret :
      s.pc t = .ret i result →
      Step s (.ret t i result) ((s.finish t).goto t .idle)

/-- Threads that run `prog` on a variable with the value `v₀`. -/
def machine (v₀ : V) : System (State T I V) (Act T I V) where
  init s := s = ⟨v₀, fun _ => .idle, fun _ => 0, fun _ => 0⟩
  step := Step next prog

/-- The variable after an update. -/
def update (i : I) (v : V) : V := (next i v).getD v

/-- The variable after the updates of a sequence of calls. -/
def updates (v : V) (is : List I) : V := is.foldl (fun v i => update next i v) v

/-- What the labels say about the calls. -/
def calls : Calls (Act T I V) T I V where
  starts
    | .call t i => some (t, i)
    | _ => none
  takes
    | .take t i result => some (t, i, result)
    | _ => none
  returns
    | .ret t i result => some (t, i, result)
    | _ => none
  later a h := by
    cases a with
    | call t i => rfl
    | step t => rfl
    | take t i result => simp at h
    | ret t i result => rfl

variable {next prog} {v₀ : V}

/-! ## Whose step it is -/

/-- The thread that makes the step. -/
def Act.thread : Act T I V → T
  | .call t _ | .step t | .take t _ _ | .ret t _ _ => t

theorem Step.pc_of_ne {s s' : State T I V} {a : Act T I V} {t : T} (h : Step next prog s a s')
    (ht : t ≠ a.thread) : s'.pc t = s.pc t := by
  cases h <;> exact Function.update_of_ne ht _ _

theorem Step.calls_of_ne {s s' : State T I V} {a : Act T I V} {t : T} (h : Step next prog s a s')
    (ht : t ≠ a.thread) : s'.calls t = s.calls t := by
  cases h with
  | ret => exact Function.update_of_ne ht _ _
  | _ => rfl

omit [DecidableEq T] in
theorem marks_thread {a : Act T I V} {t : T} (h : calls.Marks t a) : t = a.thread := by
  cases a with
  | call u i =>
      rcases h with ⟨j, hj⟩ | ⟨j, o, hj⟩
      · cases hj; rfl
      · cases hj
  | take u i result =>
      rcases h with ⟨j, hj⟩ | ⟨j, o, hj⟩
      · cases hj
      · cases hj; rfl
  | step u | ret u i result =>
      rcases h with ⟨j, hj⟩ | ⟨j, o, hj⟩
      · cases hj
      · cases hj

omit [DecidableEq T] in
@[simp] theorem not_marks_step (t u : T) : ¬ calls.Marks t (.step u : Act T I V) := by
  rintro (⟨i, hi⟩ | ⟨i, o, hi⟩)
  · cases hi
  · cases hi

/-! ## The state of a call -/

/-- The argument of a call that has not taken effect. -/
def Pc.waiting : Pc I V → Option I
  | .load i | .cas i _ _ => some i
  | .idle | .ret _ _ => none

/-- A call waits since the step that started it. -/
theorem Step.waiting {s s' : State T I V} {a : Act T I V} {t : T} {i : I}
    (h : Step next prog s a s') (hw : (s'.pc t).waiting = some i) :
    a = .call t i ∨ ¬ calls.Marks t a ∧ (s.pc t).waiting = some i := by
  by_cases ht : t = a.thread
  · subst ht
    cases h with
    | call hpc hprog =>
        refine .inl ?_
        simpa [Act.thread, Pc.waiting] using hw
    | loadGo hpc hnext =>
        refine .inr ⟨not_marks_step _ _, ?_⟩
        simpa [Act.thread, Pc.waiting, hpc] using hw
    | casFailGo hpc hnext =>
        refine .inr ⟨not_marks_step _ _, ?_⟩
        simpa [Act.thread, Pc.waiting, hpc] using hw
    | loadDone hpc hnext => simp [Act.thread, Pc.waiting] at hw
    | casOk hpc hval => simp [Act.thread, Pc.waiting] at hw
    | casFailDone hpc hnext => simp [Act.thread, Pc.waiting] at hw
    | ret hpc => simp [Act.thread, Pc.waiting] at hw
  · rw [h.pc_of_ne ht] at hw
    exact .inr ⟨fun hm => ht (marks_thread hm), hw⟩

/-- A call returns what the step that decided it found. -/
theorem Step.decided {s s' : State T I V} {a : Act T I V} {t : T} {i : I} {v : V}
    (h : Step next prog s a s') (hr : s'.pc t = .ret i v) :
    a = .take t i v ∨ ¬ calls.Marks t a ∧ s.pc t = .ret i v := by
  by_cases ht : t = a.thread
  · subst ht
    cases h with
    | call hpc hprog => simp [Act.thread] at hr
    | loadGo hpc hnext => simp [Act.thread] at hr
    | casFailGo hpc hnext => simp [Act.thread] at hr
    | loadDone hpc hnext => exact .inl (by simpa [Act.thread] using hr)
    | casOk hpc hval => exact .inl (by simpa [Act.thread] using hr)
    | casFailDone hpc hnext => exact .inl (by simpa [Act.thread] using hr)
    | ret hpc => simp [Act.thread] at hr
  · rw [h.pc_of_ne ht] at hr
    exact .inr ⟨fun hm => ht (marks_thread hm), hr⟩

/-- The step that decides a call finds the value it returns and updates it. -/
theorem Step.take_inv {s s' : State T I V} {t : T} {i : I} {v : V}
    (hnew : ∀ t i snapshot new, s.pc t = .cas i snapshot new → next i snapshot = some new)
    (h : Step next prog s (.take t i v) s') :
    (s.pc t).waiting = some i ∧ v = s.value ∧ s'.value = update next i s.value := by
  cases h with
  | loadDone hpc hnext => exact ⟨by rw [hpc]; rfl, rfl, by simp [update, hnext]⟩
  | casOk hpc hval =>
      refine ⟨by rw [hpc]; rfl, hval.symm, ?_⟩
      simp [update, hval, hnew _ _ _ _ hpc]
  | casFailDone hpc hnext => exact ⟨by rw [hpc]; rfl, rfl, by simp [update, hnext]⟩

theorem Step.ret_inv {s s' : State T I V} {t : T} {i : I} {v : V}
    (h : Step next prog s (.ret t i v) s') : s.pc t = .ret i v := by
  cases h with
  | ret hpc => exact hpc

/-- No other step changes the variable. -/
theorem Step.value_eq {s s' : State T I V} {a : Act T I V} (h : Step next prog s a s')
    (ha : calls.takes a = none) : s'.value = s.value := by
  cases h with
  | loadDone => cases ha
  | casOk => cases ha
  | casFailDone => cases ha
  | call | loadGo | casFailGo | ret => rfl

/-- The argument of the present call. -/
def Pc.arg : Pc I V → Option I
  | .idle => none
  | .load i | .cas i _ _ | .ret i _ => some i

/-- The locals of a thread fit together: the value to store is computed from the
snapshot, and the argument is that of its present call. -/
structure State.Fits (next : I → V → Option V) (prog : T → Nat → Option I) (s : State T I V)
    (t : T) : Prop where
  new : ∀ i snapshot new, s.pc t = .cas i snapshot new → next i snapshot = some new
  arg : ∀ i, (s.pc t).arg = some i → prog t (s.calls t) = some i

omit [DecidableEq T] in
/-- A thread that goes on in its present call. -/
theorem State.Fits.goto {s s' : State T I V} {t : T} {p : Pc I V} (h : s.Fits next prog t)
    (hpc : s'.pc t = p) (hcalls : s'.calls t = s.calls t) (harg : p.arg = (s.pc t).arg)
    (hnew : ∀ i snapshot new, p = .cas i snapshot new → next i snapshot = some new) :
    s'.Fits next prog t := by
  refine ⟨?_, ?_⟩
  · rw [hpc]
    exact hnew
  · rw [hpc, hcalls, harg]
    exact h.arg

theorem fits_step {s s' : State T I V} {a : Act T I V} (ih : ∀ t, s.Fits next prog t)
    (h : Step next prog s a s') (t : T) : s'.Fits next prog t := by
  by_cases ht : t = a.thread
  · subst ht
    cases h with
    | call hpc hprog =>
        refine ⟨fun i snapshot new hc => by simp [Act.thread] at hc, fun i hi => ?_⟩
        simp only [State.goto_pc, Act.thread, Function.update_self, Pc.arg,
          Option.some.injEq] at hi
        exact hi ▸ hprog
    | loadGo hpc hnext =>
        refine (ih _).goto (Function.update_self ..) rfl (by simp [Act.thread, hpc, Pc.arg]) ?_
        rintro i snapshot new ⟨⟩
        exact hnext
    | casFailGo hpc hnext =>
        refine (ih _).goto (Function.update_self ..) rfl (by simp [Act.thread, hpc, Pc.arg]) ?_
        rintro i snapshot new ⟨⟩
        exact hnext
    | loadDone hpc hnext =>
        exact (ih _).goto (Function.update_self ..) rfl (by simp [Act.thread, hpc, Pc.arg])
          (fun i snapshot new hc => by cases hc)
    | casOk hpc hval =>
        exact (ih _).goto (Function.update_self ..) rfl (by simp [Act.thread, hpc, Pc.arg])
          (fun i snapshot new hc => by cases hc)
    | casFailDone hpc hnext =>
        exact (ih _).goto (Function.update_self ..) rfl (by simp [Act.thread, hpc, Pc.arg])
          (fun i snapshot new hc => by cases hc)
    | ret hpc =>
        exact ⟨fun i snapshot new hc => by simp [Act.thread] at hc,
          fun i hi => by simp [Act.thread, Pc.arg] at hi⟩
  · have hpc := h.pc_of_ne ht
    exact (ih t).goto hpc (h.calls_of_ne ht) rfl (ih t).new

theorem fits_invariant : (machine next prog v₀).Invariant fun s => ∀ t, s.Fits next prog t where
  start := by
    rintro s rfl t
    exact ⟨fun i snapshot new h => (by cases h), fun i h => (by cases h)⟩
  next _ _ _ _ ih h := fits_step ih h

/-! ## Linearizability -/

section Runs

variable {n : Nat} (r : Run (machine next prog v₀) n)

theorem marks_of_waiting {k : Nat} (hk : k ≤ n) {t : T} {i : I}
    (h : ((r.st k).pc t).waiting = some i) :
    ∃ a, r.Last (calls.Marks t) a k ∧ r.act a = .call t i := by
  refine r.exists_origin (C := calls.Marks t) (I := fun s => (s.pc t).waiting = some i)
    (Q := fun _ _ b => b = .call t i) ?_ ?_ hk h
  · rintro s rfl hs
    cases hs
  · intro s a s' hstep hw
    rcases Step.waiting hstep hw with rfl | ⟨hm, hw'⟩
    · exact .inl ⟨.inl ⟨i, rfl⟩, rfl⟩
    · exact .inr ⟨hm, hw', fun _ _ hb => hb⟩

theorem marks_of_decided {k : Nat} (hk : k ≤ n) {t : T} {i : I} {v : V}
    (h : (r.st k).pc t = .ret i v) :
    ∃ m, r.Last (calls.Marks t) m k ∧ r.act m = .take t i v := by
  refine r.exists_origin (C := calls.Marks t) (I := fun s => s.pc t = .ret i v)
    (Q := fun _ _ b => b = .take t i v) ?_ ?_ hk h
  · rintro s rfl hs
    cases hs
  · intro s a s' hstep hr
    rcases Step.decided hstep hr with rfl | ⟨hm, hr'⟩
    · exact .inl ⟨.inr ⟨i, v, rfl⟩, rfl⟩
    · exact .inr ⟨hm, hr', fun _ _ hb => hb⟩

omit [DecidableEq T] in
theorem act_of_takes {a : Act T I V} {t : T} {i : I} {v : V}
    (h : calls.takes a = some (t, i, v)) : a = .take t i v := by
  cases a with
  | take u j w => cases h; rfl
  | call u j => cases h
  | step u => cases h
  | ret u j w => cases h

/-- A step that decides a call, in a run. -/
theorem take_run {m : Nat} (hm : m < n) {t : T} {i : I} {v : V}
    (h : calls.takes (r.act m) = some (t, i, v)) :
    ((r.st m).pc t).waiting = some i ∧ v = (r.st m).value ∧
      (r.st (m + 1)).value = update next i (r.st m).value := by
  have hstep := r.next m hm
  rw [act_of_takes h] at hstep
  have hfits := fits_invariant.reachable (r.reachable hm.le)
  exact Step.take_inv (fun t => (hfits t).new) hstep

theorem linearizable : Linearizable r calls where
  takes m hm t i v h := by
    obtain ⟨hw, -⟩ := take_run r hm h
    obtain ⟨a, hlast, hcall⟩ := marks_of_waiting r hm.le hw
    exact ⟨a, hlast, by rw [hcall]; rfl⟩
  returns j hj t i v h := by
    have hret : (r.st j).pc t = .ret i v := by
      have hstep := r.next j hj
      cases ha : r.act j with
      | ret u i' w =>
          rw [ha] at h hstep
          cases h
          exact Step.ret_inv hstep
      | call u i' => rw [ha] at h; cases h
      | step u => rw [ha] at h; cases h
      | take u i' w => rw [ha] at h; cases h
    obtain ⟨m, hlast, htake⟩ := marks_of_decided r hj.le hret
    exact ⟨m, hlast, by rw [htake]; rfl⟩

/-- The variable has the updates of the calls that took effect. -/
theorem value_eq {k : Nat} (hk : k ≤ n) :
    (r.st k).value = updates next v₀ ((points r calls k).map Point.arg) := by
  induction k with
  | zero =>
      have h0 : r.st 0 = ⟨v₀, fun _ => .idle, fun _ => 0, fun _ => 0⟩ := r.start
      rw [h0]
      rfl
  | succ k ih =>
      cases htake : calls.takes (r.act k) with
      | none =>
          rw [points_succ_of_none htake, ← ih (by omega)]
          exact Step.value_eq (r.next k hk) htake
      | some x =>
          obtain ⟨-, -, hval⟩ := take_run r hk htake
          rw [points_succ_of_some htake, hval, ih (by omega)]
          simp [updates]

/-- Each call returns what the calls before it made of the variable. -/
theorem result_eq {k : Nat} (hk : k ≤ n) {ps qs : List (Point T I V)} {p : Point T I V}
    (h : points r calls k = ps ++ p :: qs) :
    p.result = updates next v₀ (ps.map Point.arg) := by
  induction k generalizing qs with
  | zero => simp at h
  | succ k ih =>
      cases htake : calls.takes (r.act k) with
      | none =>
          rw [points_succ_of_none htake] at h
          exact ih (by omega) h
      | some x =>
          rw [points_succ_of_some htake] at h
          rcases List.eq_nil_or_concat' qs with rfl | ⟨qs', q, rfl⟩
          · -- The last call.
            obtain ⟨hps, hp⟩ := List.append_inj' h rfl
            obtain rfl := (List.cons.inj hp).1
            obtain ⟨-, hres, -⟩ := take_run r hk htake
            rw [← hps, ← value_eq r (by omega)]
            exact hres
          · rw [← List.cons_append, ← List.append_assoc] at h
            exact ih (by omega) (List.append_inj' h rfl).1

end Runs

/-! ## Which calls took effect -/

/-- How many calls of thread `t` took effect. -/
def State.effects (s : State T I V) (t : T) : Nat :=
  s.calls t + match s.pc t with
    | .ret _ _ => 1
    | _ => 0

omit [DecidableEq T] in
theorem State.effects_of_idle {s : State T I V} {t : T} (h : s.pc t = .idle) :
    s.effects t = s.calls t := by
  simp [effects, h]

theorem Step.effects_of_ne {s s' : State T I V} {a : Act T I V} {t : T}
    (h : Step next prog s a s') (ht : t ≠ a.thread) : s'.effects t = s.effects t := by
  simp only [State.effects, h.pc_of_ne ht, h.calls_of_ne ht]

theorem Step.effects_eq {s s' : State T I V} {a : Act T I V} (h : Step next prog s a s')
    (ha : calls.takes a = none) (t : T) : s'.effects t = s.effects t := by
  by_cases ht : t = a.thread
  · subst ht
    cases h with
    | loadDone => cases ha
    | casOk => cases ha
    | casFailDone => cases ha
    | call hpc hprog => simp [State.effects, Act.thread, hpc]
    | loadGo hpc hnext => simp [State.effects, Act.thread, hpc]
    | casFailGo hpc hnext => simp [State.effects, Act.thread, hpc]
    | ret hpc => simp [State.effects, Act.thread, hpc]
  · exact h.effects_of_ne ht

theorem Step.effects_take {s s' : State T I V} {t : T} {i : I} {v : V}
    (hfits : s.Fits next prog t) (h : Step next prog s (.take t i v) s') :
    s'.effects t = s.effects t + 1 ∧ prog t (s.effects t) = some i := by
  cases h with
  | loadDone hpc hnext =>
      have harg := hfits.arg i (by rw [hpc]; rfl)
      simp [State.effects, hpc, harg]
  | casOk hpc hval =>
      have harg := hfits.arg i (by rw [hpc]; rfl)
      simp [State.effects, hpc, harg]
  | casFailDone hpc hnext =>
      have harg := hfits.arg i (by rw [hpc]; rfl)
      simp [State.effects, hpc, harg]

/-- The calls of each thread take effect in the order of its program, each once. -/
theorem args_eq {n : Nat} (r : Run (machine next prog v₀) n) (t : T) {k : Nat} (hk : k ≤ n) :
    (((points r calls k).filter (·.thread = t)).map fun p => some p.arg) =
      (List.range ((r.st k).effects t)).map (prog t) := by
  induction k with
  | zero =>
      have h0 : r.st 0 = ⟨v₀, fun _ => .idle, fun _ => 0, fun _ => 0⟩ := r.start
      rw [h0]
      rfl
  | succ k ih =>
      have hstep := r.next k hk
      cases htake : calls.takes (r.act k) with
      | none => rw [points_succ_of_none htake, ih (by omega), Step.effects_eq hstep htake]
      | some x =>
          obtain ⟨u, i, v⟩ := x
          have hact := act_of_takes htake
          rw [hact] at hstep
          rw [points_succ_of_some htake, List.filter_append, List.map_append, ih (by omega)]
          by_cases hu : u = t
          · subst hu
            have hfits := fits_invariant.reachable (r.reachable (k := k) (by omega)) u
            obtain ⟨heff, hprog⟩ := Step.effects_take hfits hstep
            simp [heff, List.range_succ, hprog]
          · simp [hu, Step.effects_of_ne hstep (Ne.symm hu)]

/-! ## Loops of calls -/

/-- The program that calls with `f 0`, .., `f (m - 1)`. -/
def upTo (m : Nat) (f : Nat → I) (k : Nat) : Option I := if k < m then some (f k) else none

/-- The thread has made all calls of its program. -/
def State.Finished (prog : T → Nat → Option I) (s : State T I V) (t : T) : Prop :=
  s.pc t = .idle ∧ prog t (s.calls t) = none

section Loops

variable {m n : Nat} {f : T → Nat → I} (r : Run (machine next (fun t => upTo m (f t)) v₀) n)

theorem calls_of_finished {t : T} (h : (r.st n).Finished (fun t => upTo m (f t)) t) :
    (r.st n).calls t = m := by
  have hargs := args_eq r t (Nat.le_refl n)
  rw [State.effects_of_idle h.1] at hargs
  -- Each call that took effect was one of the loop.
  have hsome : ∀ k < (r.st n).calls t, k < m := by
    intro k hk
    have hmem : upTo m (f t) k ∈ (List.range ((r.st n).calls t)).map (upTo m (f t)) :=
      List.mem_map_of_mem (List.mem_range.mpr hk)
    rw [← hargs] at hmem
    obtain ⟨p, -, hp⟩ := List.mem_map.mp hmem
    by_contra hkm
    simp [upTo, hkm] at hp
  have hnone : ¬ (r.st n).calls t < m := by
    intro hlt
    have := h.2
    simp [upTo, hlt] at this
  by_contra hne
  have hlt : m < (r.st n).calls t := by omega
  exact absurd (hsome m hlt) (Nat.lt_irrefl m)

theorem args_of_finished {t : T} (h : (r.st n).Finished (fun t => upTo m (f t)) t) :
    ((points r calls n).filter (·.thread = t)).map Point.arg = (List.range m).map (f t) := by
  have hargs := args_eq r t (Nat.le_refl n)
  rw [State.effects_of_idle h.1, calls_of_finished r h] at hargs
  refine List.map_injective_iff.mpr (Option.some_injective I) ?_
  rw [List.map_map, List.map_map]
  refine hargs.trans (List.map_congr_left fun k hk => ?_)
  simp [upTo, List.mem_range.mp hk]

end Loops

/-- When `n` threads have finished, every call of every one has taken effect once. -/
theorem perm_of_finished {m n k : Nat} [DecidableEq I] [DecidableEq V] {f : Fin n → Nat → I}
    {prog : Fin n → Nat → Option I} (hprog : prog = fun t => upTo m (f t))
    (r : Run (machine next prog v₀) k) (h : ∀ t, (r.st k).Finished prog t) :
    ((points r calls k).map Point.arg).Perm
      ((List.finRange n).flatMap fun t => (List.range m).map (f t)) := by
  subst hprog
  refine ((perm_flatMap_filter Point.thread _ (List.nodup_finRange n) fun _ _ =>
    List.mem_finRange _).map _).trans ?_
  rw [List.map_flatMap]
  simp only [args_of_finished r (h _), List.Perm.refl]

/-! ## Lock freedom

An exchange fails because another one succeeded since the snapshot was taken, or for no reason.  So
the calls together take few steps, although a single one may go round for ever. -/

section LockFree

variable [DecidableEq V] {s s' : State T I V} {a : Act T I V} {t : T}

/-- The snapshot is no more the present value. -/
def Pc.stale (v : V) : Pc I V → Nat
  | .cas _ snapshot _ => if snapshot = v then 0 else 1
  | .idle | .load _ | .ret _ _ => 0

/-- The step is an exchange of a snapshot that is the present value. -/
def State.exchanges (s : State T I V) : Act T I V → Bool
  | .step t | .take t _ _ =>
      match s.pc t with
      | .cas _ snapshot _ => snapshot = s.value
      | .idle | .load _ | .ret _ _ => false
  | .call _ _ | .ret _ _ _ => false

/-- The step decides a call. -/
def Act.takes : Act T I V → Bool
  | .take _ _ _ => true
  | .call _ _ | .step _ | .ret _ _ _ => false

/-- The exchange succeeds. -/
def State.Succeeds (s : State T I V) (a : Act T I V) : Prop := s.exchanges a ∧ a.takes

/-- The exchange fails for no reason. -/
def State.Spurious (s : State T I V) (a : Act T I V) : Prop := s.exchanges a ∧ ¬ a.takes

instance decidableSucceeds (s : State T I V) (a : Act T I V) : Decidable (s.Succeeds a) :=
  inferInstanceAs (Decidable (_ ∧ _))

instance decidableSpurious (s : State T I V) (a : Act T I V) : Decidable (s.Spurious a) :=
  inferInstanceAs (Decidable (_ ∧ _))

theorem Pc.stale_le (v v' : V) (p : Pc I V) : p.stale v' ≤ p.stale v + 1 := by
  cases p with
  | cas i snapshot new =>
      simp only [stale]
      split
      · exact Nat.zero_le _
      · exact Nat.le_add_left 1 _
  | _ => exact Nat.zero_le _

omit [DecidableEq V] in
theorem Step.retries_of_ne (h : Step next prog s a s') (ht : t ≠ a.thread) :
    s'.retries t = s.retries t := by
  cases h with
  | casFailGo => exact Function.update_of_ne ht ..
  | casFailDone => exact Function.update_of_ne ht ..
  | _ => rfl

/-- The value changes when an exchange succeeds. -/
theorem Step.value_eq_or (h : Step next prog s a s') : s'.value = s.value ∨ s.Succeeds a := by
  cases h with
  | casOk hpc hval => exact .inr ⟨by simp [State.exchanges, hpc, hval], rfl⟩
  | _ => exact .inl rfl

/-- After its step a thread has the present value, if it has a snapshot. -/
theorem Step.stale_eq_zero (h : Step next prog s a s') : (s'.pc a.thread).stale s'.value = 0 := by
  cases h <;> simp [Act.thread, Pc.stale]

variable [Fintype T]

/-- A sum over all threads in which the entry of a thread is the larger by one at most when its snapshot
becomes stale. -/
theorem Step.sum_le {g : Nat → Pc I V → V → Nat} (hg : ∀ k p v v', g k p v' ≤ g k p v + 1)
    (h : Step next prog s a s') :
    ∑ t, g (s'.retries t) (s'.pc t) s'.value + g (s.retries a.thread) (s.pc a.thread) s.value ≤
      ∑ t, g (s.retries t) (s.pc t) s.value + g (s'.retries a.thread) (s'.pc a.thread) s'.value +
        if s.Succeeds a then Fintype.card T - 1 else 0 := by
  have hrest : ∑ u ∈ Finset.univ.erase a.thread, g (s'.retries u) (s'.pc u) s'.value ≤
      ∑ u ∈ Finset.univ.erase a.thread, g (s.retries u) (s.pc u) s.value +
        if s.Succeeds a then Fintype.card T - 1 else 0 := by
    have hsame : ∀ u ∈ Finset.univ.erase a.thread,
        g (s'.retries u) (s'.pc u) s'.value = g (s.retries u) (s.pc u) s'.value := fun u hu => by
      have hne := Finset.ne_of_mem_erase hu
      rw [h.retries_of_ne hne, h.pc_of_ne hne]
    rw [Finset.sum_congr rfl hsame]
    rcases h.value_eq_or with hval | hsucc
    · rw [hval]
      exact Nat.le_add_right ..
    · rw [if_pos hsucc]
      refine (Finset.sum_le_sum fun u _ => hg _ _ s.value _).trans ?_
      rw [Finset.sum_add_distrib, Finset.sum_const, Finset.card_erase_of_mem (Finset.mem_univ _),
        Finset.card_univ, smul_eq_mul, mul_one]
  rw [← Finset.add_sum_erase _ _ (Finset.mem_univ a.thread),
    ← Finset.add_sum_erase _ (fun t => g (s.retries t) (s.pc t) s.value)
      (Finset.mem_univ a.thread)]
  omega

/-- The failed exchanges, and those that are bound to fail. -/
def State.failures (s : State T I V) : Nat := ∑ t, (s.retries t + (s.pc t).stale s.value)

omit [DecidableEq T] [Fintype T] in
/-- An exchange that fails although the snapshot is the present value fails for no reason. -/
theorem stale_or_spurious {i : I} {snapshot new : V} (hpc : s.pc t = .cas i snapshot new)
    (ha : a = .step t) : 1 ≤ (s.pc t).stale s.value + if s.Spurious a then 1 else 0 := by
  subst ha
  by_cases hval : snapshot = s.value
  · have hspur : s.Spurious (.step t : Act T I V) :=
      ⟨by simp [State.exchanges, hpc, hval], by simp [Act.takes]⟩
    rw [if_pos hspur]
    exact Nat.le_add_left ..
  · simp [hpc, Pc.stale, hval]

omit [DecidableEq T] [Fintype T] in
/-- A call that finds no value to store has found another one than its snapshot. -/
theorem stale_of_done (hfits : s.Fits next prog t) {i : I} {snapshot new : V}
    (hpc : s.pc t = .cas i snapshot new) (hnext : next i s.value = none) :
    (s.pc t).stale s.value = 1 := by
  have hne : snapshot ≠ s.value := by
    rintro rfl
    rw [hfits.new _ _ _ hpc] at hnext
    cases hnext
  simp [hpc, Pc.stale, hne]

/-- A snapshot becomes stale by an exchange that succeeds. -/
theorem Step.failures_le (hfits : ∀ t, s.Fits next prog t) (h : Step next prog s a s') :
    s'.failures ≤ s.failures + (if s.Succeeds a then Fintype.card T - 1 else 0) +
      if s.Spurious a then 1 else 0 := by
  have hsum := h.sum_le (g := fun k p v => k + p.stale v) fun k p v v' =>
    (Nat.add_le_add_left (Pc.stale_le v v' p) k).trans_eq (Nat.add_assoc k _ 1).symm
  have hthread : s'.retries a.thread ≤
      s.retries a.thread + (s.pc a.thread).stale s.value + if s.Spurious a then 1 else 0 := by
    cases h with
    | casFailGo hpc hnext =>
        have := stale_or_spurious hpc rfl
        simp only [Act.thread, State.goto_retries, State.retry_retries, Function.update_self]
        omega
    | casFailDone hpc hnext =>
        have := stale_of_done (hfits _) hpc hnext
        simp only [Act.thread, State.goto_retries, State.retry_retries, Function.update_self]
        omega
    | _ => exact (Nat.le_add_right ..).trans (Nat.le_add_right ..)
  simp only [h.stale_eq_zero] at hsum
  simp only [State.failures]
  omega

/-- What a thread has still to pay in its call, if `r` other threads may become stale by it. -/
def Pc.weight (r : Nat) (v : V) : Pc I V → Nat
  | .idle => 0
  | .load _ => r + 3
  | .cas i snapshot new => r + 2 + (Pc.cas i snapshot new).stale v
  | .ret _ _ => 1

/-- The step starts a call. -/
def Act.starts : Act T I V → Bool
  | .call _ _ => true
  | .step _ | .take _ _ _ | .ret _ _ _ => false

omit [DecidableEq T] [Fintype T] in
theorem Pc.weight_le (r : Nat) (v v' : V) (p : Pc I V) : p.weight r v' ≤ p.weight r v + 1 := by
  cases p with
  | cas i snapshot new => exact Nat.add_le_add_left (Pc.stale_le v v' (.cas i snapshot new)) (r + 2)
  | _ => exact Nat.le_add_right ..

def State.weight (s : State T I V) : Nat := ∑ t, (s.pc t).weight (Fintype.card T - 1) s.value

/-- Each step is paid for. -/
theorem Step.weight_lt (h : Step next prog s a s') :
    s'.weight < s.weight + ((if a.starts then Fintype.card T + 3 else 0) +
      if s.Spurious a then 1 else 0) := by
  have hsum := h.sum_le (g := fun _ p v => p.weight (Fintype.card T - 1) v) fun _ p v v' =>
    Pc.weight_le _ v v' p
  have hpos : 0 < Fintype.card T := Fintype.card_pos_iff.mpr ⟨a.thread⟩
  have hsucc : (if s.Succeeds a then Fintype.card T - 1 else 0) ≤
      if a.takes then Fintype.card T - 1 else 0 := by
    by_cases hs : s.Succeeds a
    · rw [if_pos hs, if_pos hs.2]
    · rw [if_neg hs]
      exact Nat.zero_le _
  have hthread : (s'.pc a.thread).weight (Fintype.card T - 1) s'.value +
        (if a.takes then Fintype.card T - 1 else 0) <
      (s.pc a.thread).weight (Fintype.card T - 1) s.value +
        ((if a.starts then Fintype.card T + 3 else 0) + if s.Spurious a then 1 else 0) := by
    cases h with
    | call hpc _ =>
        simp only [Act.thread, Act.takes, Act.starts, State.goto_pc, Function.update_self, hpc,
          Pc.weight, if_true, Bool.false_eq_true, if_false]
        omega
    | loadGo hpc _ =>
        simp only [Act.thread, Act.takes, Act.starts, State.goto_pc, State.goto_value,
          Function.update_self, hpc, Pc.weight, Pc.stale, if_true, Bool.false_eq_true, if_false]
        omega
    | loadDone hpc _ =>
        simp only [Act.thread, Act.takes, Act.starts, State.goto_pc, Function.update_self, hpc,
          Pc.weight, if_true, Bool.false_eq_true, if_false]
        omega
    | casOk hpc _ =>
        -- The new value makes the snapshots of all others stale.
        simp only [Act.thread, Act.takes, Act.starts, State.goto_pc, Function.update_self, hpc,
          Pc.weight, if_true, Bool.false_eq_true, if_false]
        omega
    | casFailGo hpc _ =>
        have hpaid := stale_or_spurious hpc rfl
        rw [hpc] at hpaid
        simp only [Act.thread, Act.takes, Act.starts, State.goto_pc, State.goto_value,
          State.retry_value, Function.update_self, hpc, Pc.weight, Bool.false_eq_true, if_false]
        rw [Pc.stale, if_pos rfl]
        omega
    | casFailDone hpc _ =>
        simp only [Act.thread, Act.takes, Act.starts, State.goto_pc, Function.update_self, hpc,
          Pc.weight, if_true, Bool.false_eq_true, if_false]
        omega
    | ret hpc => simp [Act.thread, Act.takes, Act.starts, Pc.weight, hpc]
  simp only [State.weight]
  omega

section Run

variable {n : Nat} (r : Run (machine next prog v₀) n)

/-- Any threads together take at most `card T + 3` steps for each call that was started, and one for
each exchange that failed for no reason. -/
theorem length_le :
    n ≤ (Fintype.card T + 3) * r.count (fun _ a => a.starts) n + r.count State.Spurious n := by
  have hlen := r.length_le_cost (w := State.weight)
    (c := fun s a => (if a.starts then Fintype.card T + 3 else 0) + if s.Spurious a then 1 else 0)
    fun k hk => Step.weight_lt (r.next k hk)
  have hzero : (r.st 0).weight = 0 := by
    rw [show r.st 0 = ⟨v₀, fun _ => .idle, fun _ => 0, fun _ => 0⟩ from r.start]
    simp [State.weight, Pc.weight]
  rw [hzero, Nat.zero_add, r.cost_add, r.cost_ite, r.cost_ite, Nat.one_mul] at hlen
  exact hlen

/-- All failed exchanges: an exchange that succeeds makes each other thread fail once. -/
theorem retries_le :
    ∑ t, (r.st n).retries t ≤
      (Fintype.card T - 1) * r.count State.Succeeds n + r.count State.Spurious n := by
  have hfail := r.weight_le_cost (w := State.failures)
    (c := fun s a => (if s.Succeeds a then Fintype.card T - 1 else 0) + if s.Spurious a then 1 else 0)
    fun k hk => by
      rw [← Nat.add_assoc]
      exact Step.failures_le (fits_invariant.reachable (r.reachable hk.le)) (r.next k hk)
  have hzero : (r.st 0).failures = 0 := by
    rw [show r.st 0 = ⟨v₀, fun _ => .idle, fun _ => 0, fun _ => 0⟩ from r.start]
    simp [State.failures, Pc.stale]
  have hle : ∑ t, (r.st n).retries t ≤ (r.st n).failures :=
    Finset.sum_le_sum fun t _ => Nat.le_add_right ..
  rw [hzero, Nat.zero_add, r.cost_add, r.cost_ite, r.cost_ite, Nat.one_mul] at hfail
  exact hle.trans hfail

end Run

end LockFree

/-! ## How many calls there are -/

section

variable {s s' : State T I V} {a : Act T I V} {t : T}

/-- How many calls of the thread were started. -/
def State.started (s : State T I V) (t : T) : Nat :=
  s.calls t + match s.pc t with
    | .idle => 0
    | _ => 1

omit [DecidableEq T] in
theorem State.effects_le_started (s : State T I V) (t : T) : s.effects t ≤ s.started t := by
  rw [effects, started]
  cases s.pc t <;> simp

theorem Step.started_eq (h : Step next prog s a s') (u : T) :
    s'.started u = s.started u + if a.starts ∧ u = a.thread then 1 else 0 := by
  by_cases hu : u = a.thread
  · subst hu
    cases h <;> simp_all [State.started, Act.thread, Act.starts]
  · simp [State.started, h.pc_of_ne hu, h.calls_of_ne hu, hu]

theorem Step.effects_succ (h : Step next prog s a s') (u : T) :
    s'.effects u = s.effects u + if a.takes ∧ u = a.thread then 1 else 0 := by
  by_cases hu : u = a.thread
  · subst hu
    cases h <;> simp_all [State.effects, Act.thread, Act.takes]
  · simp [State.effects, h.pc_of_ne hu, h.calls_of_ne hu, hu]

variable [Fintype T] {n : Nat} (r : Run (machine next prog v₀) n)

/-- A number that each thread counts at its own steps of one kind. -/
theorem sum_eq_count {f : State T I V → T → Nat} {p : Act T I V → Bool}
    (h0 : ∀ t, f (r.st 0) t = 0)
    (hstep : ∀ k < n, ∀ t, f (r.st (k + 1)) t =
      f (r.st k) t + if p (r.act k) ∧ t = (r.act k).thread then 1 else 0) :
    ∑ t, f (r.st n) t = r.count (fun _ a => p a) n := by
  refine r.induct_from (i := 0) (P := fun k => ∑ t, f (r.st k) t = r.count (fun _ a => p a) k)
    (by simp [h0, Run.count]) (fun k _ hk _ ih => ?_) (Nat.zero_le n) le_rfl
  rw [Run.count_succ, ← ih, Finset.sum_congr rfl fun t _ => hstep k hk t, Finset.sum_add_distrib]
  by_cases hp : p (r.act k)
  · simp [hp]
  · simp [hp]

theorem sum_started : ∑ t, (r.st n).started t = r.count (fun _ a => a.starts) n := by
  refine sum_eq_count r (fun t => ?_) fun k hk t => Step.started_eq (r.next k hk) t
  rw [show r.st 0 = ⟨v₀, fun _ => .idle, fun _ => 0, fun _ => 0⟩ from r.start]
  rfl

theorem sum_effects : ∑ t, (r.st n).effects t = r.count (fun _ a => a.takes) n := by
  refine sum_eq_count r (fun t => ?_) fun k hk t => Step.effects_succ (r.next k hk) t
  rw [show r.st 0 = ⟨v₀, fun _ => .idle, fun _ => 0, fun _ => 0⟩ from r.start]
  rfl

omit [Fintype T] in
/-- A loop of `m` calls starts no more. -/
theorem started_le {m : Nat} {f : T → Nat → I} {s : State T I V}
    (hs : (machine next (fun t => upTo m (f t)) v₀).Reachable s) (t : T) : s.started t ≤ m := by
  have hinv : (machine next (fun t => upTo m (f t)) v₀).Invariant fun s => ∀ t, s.started t ≤ m := by
    refine ⟨?_, fun s a s' _ ih h u => ?_⟩
    · rintro s rfl t
      exact Nat.zero_le m
    · rw [Step.started_eq h u]
      split
      case isTrue hu =>
        obtain ⟨hstarts, rfl⟩ := hu
        cases h with
        | call hpc hprog =>
            simp only [Act.thread, State.started, hpc, upTo] at hprog ⊢
            split at hprog
            · omega
            · cases hprog
        | _ => cases hstarts
      case isFalse => exact ih u
  exact hinv.reachable hs t

omit [Fintype T] in
/-- A thread that has not finished can move, whatever the others do, and not only by an exchange that
fails for no reason. -/
theorem exists_step [DecidableEq V] (hf : ¬ s.Finished prog t) :
    ∃ a s', Step next prog s a s' ∧ a.thread = t ∧ ¬ s.Spurious a := by
  cases hpc : s.pc t with
  | idle =>
      cases hprog : prog t (s.calls t) with
      | none => exact absurd ⟨hpc, hprog⟩ hf
      | some i => exact ⟨_, _, .call hpc hprog, rfl, by simp [State.Spurious, State.exchanges]⟩
  | load i =>
      cases hnext : next i s.value with
      | none => exact ⟨_, _, .loadDone hpc hnext, rfl, by simp [State.Spurious, Act.takes]⟩
      | some new =>
          exact ⟨_, _, .loadGo hpc hnext, rfl, by simp [State.Spurious, State.exchanges, hpc]⟩
  | cas i snapshot new =>
      by_cases hval : s.value = snapshot
      · exact ⟨_, _, .casOk hpc hval, rfl, by simp [State.Spurious, Act.takes]⟩
      · cases hnext : next i s.value with
        | none => exact ⟨_, _, .casFailDone hpc hnext, rfl, by simp [State.Spurious, Act.takes]⟩
        | some new' =>
            refine ⟨_, _, .casFailGo hpc hnext, rfl, ?_⟩
            simp [State.Spurious, State.exchanges, hpc, Ne.symm hval]
  | ret i result => exact ⟨_, _, .ret hpc, rfl, by simp [State.Spurious, State.exchanges]⟩

/-- Loops of `m` calls. -/
theorem starts_le {m n : Nat} {f : T → Nat → I}
    (r : Run (machine next (fun t => upTo m (f t)) v₀) n) :
    r.count (fun _ a => a.starts) n ≤ Fintype.card T * m := by
  rw [← sum_started r]
  refine (Finset.sum_le_sum fun t _ => started_le (r.reachable le_rfl) t).trans ?_
  simp

theorem succeeds_le [DecidableEq V] {m n : Nat} {f : T → Nat → I}
    (r : Run (machine next (fun t => upTo m (f t)) v₀) n) :
    r.count State.Succeeds n ≤ Fintype.card T * m := by
  calc r.count State.Succeeds n
      ≤ r.count (fun _ a => a.takes) n := r.count_le (fun _ _ h => h.2) n
    _ = ∑ t, (r.st n).effects t := (sum_effects r).symm
    _ ≤ ∑ t, (r.st n).started t := Finset.sum_le_sum fun t _ => (r.st n).effects_le_started t
    _ = r.count (fun _ a => a.starts) n := sum_started r
    _ ≤ Fintype.card T * m := starts_le r

end

end CasLoop
