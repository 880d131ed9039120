import SystemsDrills.Lib.Transition

/-!
# Monitors: a mutex and condition variables

Threads call the operations of one object.  An operation locks the mutex and tests
whether it can go on.  If not, it waits on its condition variable, which releases the
mutex while the thread sleeps, and tests again after it has been woken and has locked
the mutex again; or it gives up.  If it can go on, it updates the data in several
steps, signals another condition variable and unlocks the mutex.

A signal wakes one sleeper, any, if there is one.  A sleeper may also wake for no
reason.  A thread that was woken competes for the mutex with all others.

`Operations.attempts` runs the sections alone, one after the other.

*Atomicity.*  The data as they will be when the owner of the mutex has made its
remaining updates (`State.settled`) change only when a test succeeds, and then by the
whole section at once.  So what the sections keep, one after the other, holds at every
moment (`Step.serve`).
-/

namespace Monitor

open Transition

/-- The operations `O` of an object with data `D` and condition variables `C`.  The
locals of a call are the result it is going to return, if it has one. -/
structure Operations (D C O R : Type) where
  /-- The condition variable that stands for the test. -/
  cond : O → C
  /-- The operation cannot go on. -/
  blocked : O → D → Prop
  /-- Whether the operation waits then or gives up. -/
  waits : O → Bool
  /-- The updates of the section. -/
  body : O → List (D × Option R → D × Option R)
  /-- The condition variable it signals. -/
  signal : O → C

variable {D C O R T : Type}

/-- The updates `fs`, one after the other. -/
def updates (fs : List (D × Option R → D × Option R)) (x : D × Option R) : D × Option R :=
  fs.foldl (fun x f => f x) x

/-- The whole section at once. -/
def Operations.apply (M : Operations D C O R) (op : O) (d : D) : D × Option R :=
  updates (M.body op) (d, none)

/-- One attempt at an operation: the section with its result, or nothing if the
operation is blocked. -/
def Operations.attempt (M : Operations D C O R) [∀ op d, Decidable (M.blocked op d)] (d : D)
    (op : O) : Option (Option R) × D :=
  if M.blocked op d then (none, d) else (some (M.apply op d).2, (M.apply op d).1)

/-- A sequence of attempts. -/
def Operations.attempts (M : Operations D C O R) [∀ op d, Decidable (M.blocked op d)] (d : D) :
    List O → List (Option (Option R)) × D
  | [] => ([], d)
  | op :: ops =>
      let (o, d') := M.attempt d op
      let (os, d'') := M.attempts d' ops
      (o :: os, d'')

/-! ## The machine -/

/-- Where a thread is. -/
inductive Pc (D O R : Type) where
  | idle
  /-- Before the mutex is locked. -/
  | lock (op : O)
  | test (op : O)
  | asleep (op : O)
  /-- Woken, before the mutex is locked again. -/
  | woken (op : O)
  /-- In the section, with the updates still to make. -/
  | body (op : O) (todo : List (D × Option R → D × Option R)) (result : Option R)
  /-- After the signal. -/
  | unlock (op : O) (result : Option R)
  /-- Before the mutex is unlocked without an update. -/
  | refuse (op : O)

structure State (T D O R : Type) where
  data : D
  /-- The owner. -/
  mutex : Option T
  pc : T → Pc D O R

inductive Act (T O R : Type) where
  | call (t : T) (op : O)
  | step (t : T)
  /-- The test succeeds. -/
  | pass (t : T) (op : O)
  | ret (t : T) (op : O) (result : Option R)
  | refused (t : T) (op : O)

namespace State

@[simps] def setData (s : State T D O R) (d : D) : State T D O R := { s with data := d }

@[simps] def setMutex (s : State T D O R) (m : Option T) : State T D O R := { s with mutex := m }

@[simps] def goto [DecidableEq T] (s : State T D O R) (t : T) (p : Pc D O R) : State T D O R :=
  { s with pc := Function.update s.pc t p }

end State

variable [DecidableEq T] (M : Operations D C O R)

inductive Step : State T D O R → Act T O R → State T D O R → Prop where
  | call :
      s.pc t = .idle →
      Step s (.call t op) (s.goto t (.lock op))
  | lock :
      s.pc t = .lock op → s.mutex = none →
      Step s (.step t) ((s.setMutex (some t)).goto t (.test op))
  | relock :
      s.pc t = .woken op → s.mutex = none →
      Step s (.step t) ((s.setMutex (some t)).goto t (.test op))
  | wait :
      s.pc t = .test op → M.blocked op s.data → M.waits op = true →
      Step s (.step t) ((s.setMutex none).goto t (.asleep op))
  | giveUp :
      s.pc t = .test op → M.blocked op s.data → M.waits op = false →
      Step s (.step t) (s.goto t (.refuse op))
  | pass :
      s.pc t = .test op → ¬ M.blocked op s.data →
      Step s (.pass t op) (s.goto t (.body op (M.body op) none))
  | body :
      s.pc t = .body op (f :: todo) r →
      Step s (.step t)
        ((s.setData (f (s.data, r)).1).goto t (.body op todo (f (s.data, r)).2))
  | signalOne :
      s.pc t = .body op [] r → s.pc u = .asleep op' → M.cond op' = M.signal op →
      Step s (.step t) ((s.goto u (.woken op')).goto t (.unlock op r))
  | signalNone :
      s.pc t = .body op [] r → (∀ u op', s.pc u = .asleep op' → M.cond op' ≠ M.signal op) →
      Step s (.step t) (s.goto t (.unlock op r))
  | spurious :
      s.pc t = .asleep op →
      Step s (.step t) (s.goto t (.woken op))
  | unlock :
      s.pc t = .unlock op r →
      Step s (.ret t op r) ((s.setMutex none).goto t .idle)
  | refuse :
      s.pc t = .refuse op →
      Step s (.refused t op) ((s.setMutex none).goto t .idle)

/-- Any threads on an object with data `d₀`. -/
def machine (d₀ : D) : System (State T D O R) (Act T O R) where
  init s := s = ⟨d₀, none, fun _ => .idle⟩
  step := Step M

variable {M} {d₀ : D}

/-! ## Mutual exclusion -/

/-- The thread owns the mutex. -/
def Pc.Holds : Pc D O R → Prop
  | .test _ | .body _ _ _ | .unlock _ _ | .refuse _ => True
  | .idle | .lock _ | .asleep _ | .woken _ => False

/-- The owner of the mutex is the only thread in a section. -/
def State.Excl (s : State T D O R) : Prop := ∀ t, (s.pc t).Holds ↔ s.mutex = some t

omit [DecidableEq T] in
theorem State.ne_of_pc {s : State T D O R} {t u : T} {p q : Pc D O R} (ht : s.pc t = p)
    (hu : s.pc u = q) (hne : p ≠ q) : t ≠ u := by
  rintro rfl
  exact hne (ht.symm.trans hu)

theorem State.Excl.goto {s : State T D O R} (hx : s.Excl) {t : T} {p : Pc D O R}
    (hp : p.Holds ↔ (s.pc t).Holds) : (s.goto t p).Excl := by
  intro u
  by_cases hu : u = t
  · subst hu
    simpa [hp] using hx u
  · simpa [hu] using hx u

theorem State.Excl.acquire {s : State T D O R} (hx : s.Excl) (hm : s.mutex = none) (t : T)
    {p : Pc D O R} (hp : p.Holds) : ((s.setMutex (some t)).goto t p).Excl := by
  intro u
  by_cases hu : u = t
  · subst hu
    simpa using hp
  · have := hx u
    simp only [hm, reduceCtorEq, iff_false] at this
    simpa [hu, this] using fun h => hu h.symm

theorem State.Excl.release {s : State T D O R} (hx : s.Excl) {t : T} (ht : (s.pc t).Holds)
    {p : Pc D O R} (hp : ¬ p.Holds) : ((s.setMutex none).goto t p).Excl := by
  intro u
  by_cases hu : u = t
  · subst hu
    simpa using hp
  · have := hx u
    rw [(hx t).mp ht] at this
    simpa [hu, this] using fun h => hu h.symm

theorem excl_step {s s' : State T D O R} {a : Act T O R} (hx : s.Excl) (h : Step M s a s') :
    s'.Excl := by
  cases h with
  | call hpc => exact hx.goto (by simp [hpc, Pc.Holds])
  | lock hpc hm => exact hx.acquire hm _ trivial
  | relock hpc hm => exact hx.acquire hm _ trivial
  | wait hpc _ _ => exact hx.release (by simp [hpc, Pc.Holds]) (by simp [Pc.Holds])
  | giveUp hpc _ _ => exact hx.goto (by simp [hpc, Pc.Holds])
  | pass hpc _ => exact hx.goto (by simp [hpc, Pc.Holds])
  | body hpc => exact State.Excl.goto (s := s.setData _) hx (by simp [hpc, Pc.Holds])
  | signalOne hpc hu hc =>
      have hne := State.ne_of_pc hpc hu (by simp)
      refine State.Excl.goto (hx.goto (by simp [hu, Pc.Holds])) ?_
      simp [hne, hpc, Pc.Holds]
  | signalNone hpc _ => exact hx.goto (by simp [hpc, Pc.Holds])
  | spurious hpc => exact hx.goto (by simp [hpc, Pc.Holds])
  | unlock hpc => exact hx.release (by simp [hpc, Pc.Holds]) (by simp [Pc.Holds])
  | refuse hpc => exact hx.release (by simp [hpc, Pc.Holds]) (by simp [Pc.Holds])

theorem excl_invariant : (machine (T := T) M d₀).Invariant State.Excl where
  start := by
    rintro s rfl t
    simp [Pc.Holds]
  next _ _ _ _ hx h := excl_step hx h

/-! ## The data -/

/-- The updates that the thread has still to make are those of its section. -/
def Pc.Within (M : Operations D C O R) : Pc D O R → Prop
  | .body op todo _ => ∀ f ∈ todo, f ∈ M.body op
  | _ => True

theorem within_update {pc : T → Pc D O R} (h : ∀ t, (pc t).Within M) {u : T} {p : Pc D O R}
    (hp : p.Within M) (t : T) : (Function.update pc u p t).Within M := by
  by_cases ht : t = u
  · rw [ht, Function.update_self]
    exact hp
  · rw [Function.update_of_ne ht]
    exact h t

/-- What every single update keeps holds of the data at every moment. -/
theorem data_invariant {P : D → Prop} (start : P d₀)
    (next : ∀ op, ∀ f ∈ M.body op, ∀ d r, P d → P (f (d, r)).1) :
    (machine (T := T) M d₀).Invariant fun s => P s.data ∧ ∀ t, (s.pc t).Within M where
  start := by
    rintro s rfl
    exact ⟨start, fun _ => trivial⟩
  next := by
    rintro s a s' - ⟨hP, hpc⟩ h
    cases h with
    | call _ => exact ⟨hP, within_update hpc trivial⟩
    | lock _ _ => exact ⟨hP, within_update hpc trivial⟩
    | relock _ _ => exact ⟨hP, within_update hpc trivial⟩
    | wait _ _ _ => exact ⟨hP, within_update hpc trivial⟩
    | giveUp _ _ _ => exact ⟨hP, within_update hpc trivial⟩
    | pass _ _ => exact ⟨hP, within_update hpc fun _ hf => hf⟩
    | @body _ t _ _ _ _ hbody =>
        have htodo := hpc t
        rw [hbody] at htodo
        obtain ⟨hf, hrest⟩ := List.forall_mem_cons.mp htodo
        exact ⟨next _ _ hf _ _ hP, within_update hpc hrest⟩
    | signalOne _ _ _ =>
        exact ⟨hP, within_update (within_update hpc (p := .woken _) trivial) trivial⟩
    | signalNone _ _ => exact ⟨hP, within_update hpc trivial⟩
    | spurious _ => exact ⟨hP, within_update hpc trivial⟩
    | unlock _ => exact ⟨hP, within_update hpc trivial⟩
    | refuse _ => exact ⟨hP, within_update hpc trivial⟩

/-! ## The operation of a call -/

/-- The operation that the thread has called. -/
def Pc.op : Pc D O R → Option O
  | .idle => none
  | .lock op | .test op | .asleep op | .woken op | .body op _ _ | .unlock op _ | .refuse op => some op

theorem op_update {pc : T → Pc D O R} {u : T} {p : Pc D O R} (h : p.op = (pc u).op) (t : T) :
    (Function.update pc u p t).op = (pc t).op := by
  by_cases ht : t = u
  · subst ht
    simpa using h
  · rw [Function.update_of_ne ht]

/-- A thread is in the call that it made last. -/
theorem Step.op_inv {s s' : State T D O R} {a : Act T O R} {t : T} {op : O} (h : Step M s a s')
    (hop : (s'.pc t).op = some op) :
    a = .call t op ∨ (s.pc t).op = some op ∧ ∀ op' r, a ≠ .ret t op' r := by
  have keep : ∀ {u p}, p.op = (s.pc u).op → (Function.update s.pc u p t).op = some op →
      (s.pc t).op = some op := fun hp hu => (op_update hp t).symm.trans hu
  cases h with
  | call hpc =>
      rename_i u op'
      by_cases ht : t = u
      · subst ht
        have : op' = op := by simpa [Pc.op] using hop
        exact .inl (by rw [this])
      · exact .inr ⟨by simpa [ht] using hop, by simp⟩
  | lock hpc _ => exact .inr ⟨keep (by rw [hpc]; rfl) hop, by simp⟩
  | relock hpc _ => exact .inr ⟨keep (by rw [hpc]; rfl) hop, by simp⟩
  | wait hpc _ _ => exact .inr ⟨keep (by rw [hpc]; rfl) hop, by simp⟩
  | giveUp hpc _ _ => exact .inr ⟨keep (by rw [hpc]; rfl) hop, by simp⟩
  | pass hpc _ => exact .inr ⟨keep (by rw [hpc]; rfl) hop, by simp⟩
  | body hpc => exact .inr ⟨keep (by rw [hpc]; rfl) hop, by simp⟩
  | signalOne hpc hu _ =>
      have hne := State.ne_of_pc hpc hu (by simp)
      refine .inr ⟨keep (by rw [hu]; rfl) ((op_update ?_ t).symm.trans hop), by simp⟩
      rw [Function.update_of_ne hne, hpc]
      rfl
  | signalNone hpc _ => exact .inr ⟨keep (by rw [hpc]; rfl) hop, by simp⟩
  | spurious hpc => exact .inr ⟨keep (by rw [hpc]; rfl) hop, by simp⟩
  | unlock hpc =>
      rename_i u op' r
      by_cases ht : t = u
      · subst ht
        simp [Pc.op] at hop
      · exact .inr ⟨by simpa [ht] using hop, by simpa using fun h => absurd h.symm ht⟩
  | refuse hpc =>
      rename_i u op'
      by_cases ht : t = u
      · subst ht
        simp [Pc.op] at hop
      · exact .inr ⟨by simpa [ht] using hop, by simp⟩

theorem Step.pass_op {s s' : State T D O R} {t : T} {op : O} (h : Step M s (.pass t op) s') :
    (s.pc t).op = some op := by
  cases h with
  | pass hpc _ => rw [hpc]; rfl

theorem Step.ret_op {s s' : State T D O R} {t : T} {op : O} {r : Option R}
    (h : Step M s (.ret t op r) s') : (s.pc t).op = some op ∧ (s'.pc t).op = none := by
  cases h with
  | unlock hpc => exact ⟨by rw [hpc]; rfl, by simp [Pc.op]⟩

/-! ## Atomicity -/

/-- The data when the thread has made its remaining updates. -/
def Pc.settle : Pc D O R → D → D
  | .body _ todo r, d => (updates todo (d, r)).1
  | _, d => d

/-- The operation that the thread has begun and not yet returned from, with its
result. -/
def Pc.pending : Pc D O R → D → Option (O × Option R)
  | .body op todo r, d => some (op, (updates todo (d, r)).2)
  | .unlock op r, _ => some (op, r)
  | _, _ => none

/-- The data when the owner of the mutex has made its remaining updates. -/
def State.settled (s : State T D O R) : D :=
  match s.mutex with
  | none => s.data
  | some t => (s.pc t).settle s.data

/-- The operation that is in its section, with its result. -/
def State.pending (s : State T D O R) : Option (T × O × Option R) :=
  match s.mutex with
  | none => none
  | some t => ((s.pc t).pending s.data).map (t, ·)

/-- The operation that returns at a step. -/
def Act.served : Act T O R → Option (T × O × Option R)
  | .ret t op r => some (t, op, r)
  | .call _ _ | .step _ | .pass _ _ | .refused _ _ => none

section Settled

variable {s : State T D O R} {t : T} {p : Pc D O R}

omit [DecidableEq T] in
theorem State.settled_of_free (h : s.mutex = none) : s.settled = s.data := by
  simp [settled, h]

omit [DecidableEq T] in
theorem State.pending_of_free (h : s.mutex = none) : s.pending = none := by
  simp [pending, h]

omit [DecidableEq T] in
theorem State.settled_of_owner (h : s.mutex = some t) (hpc : s.pc t = p) :
    s.settled = p.settle s.data := by
  simp [settled, h, hpc]

omit [DecidableEq T] in
theorem State.pending_of_owner (h : s.mutex = some t) (hpc : s.pc t = p) :
    s.pending = (p.pending s.data).map (t, ·) := by
  simp [pending, h, hpc]

/-- A thread that moves and is not the owner. -/
theorem State.settled_goto_of_ne (h : s.mutex ≠ some t) : (s.goto t p).settled = s.settled := by
  cases hm : s.mutex with
  | none => simp [settled, hm]
  | some u =>
      have hut : u ≠ t := fun e => h (e ▸ hm)
      simp [settled, hm, hut]

theorem State.pending_goto_of_ne (h : s.mutex ≠ some t) : (s.goto t p).pending = s.pending := by
  cases hm : s.mutex with
  | none => simp [pending, hm]
  | some u =>
      have hut : u ≠ t := fun e => h (e ▸ hm)
      simp [pending, hm, hut]

/-- The owner moves. -/
theorem State.settled_goto (h : s.mutex = some t) : (s.goto t p).settled = p.settle s.data := by
  simp [settled, h]

theorem State.pending_goto (h : s.mutex = some t) :
    (s.goto t p).pending = (p.pending s.data).map (t, ·) := by
  simp [pending, h]

end Settled

omit [DecidableEq T] in
/-- The operation in its section is one that was called. -/
theorem State.op_of_pending {s : State T D O R} {t : T} {op : O} {r : Option R}
    (h : s.pending = some (t, op, r)) : (s.pc t).op = some op := by
  cases hm : s.mutex with
  | none => simp [pending, hm] at h
  | some u =>
      cases hpc : s.pc u with
      | body op' todo r' =>
          simp only [pending, hm, hpc, Pc.pending, Option.map_some, Option.some.injEq,
            Prod.mk.injEq] at h
          obtain ⟨rfl, rfl, -⟩ := h
          rw [hpc]
          rfl
      | unlock op' r' =>
          simp only [pending, hm, hpc, Pc.pending, Option.map_some, Option.some.injEq,
            Prod.mk.injEq] at h
          obtain ⟨rfl, rfl, -⟩ := h
          rw [hpc]
          rfl
      | _ => simp [pending, hm, hpc, Pc.pending] at h

/-- The step that succeeds in its test settles the whole section. -/
theorem Step.settled_pass {s s' : State T D O R} {t : T} {op : O} (hx : s.Excl)
    (h : Step M s (.pass t op) s') :
    ¬ M.blocked op s.settled ∧ s.pending = none ∧ s'.settled = (M.apply op s.settled).1 ∧
      s'.pending = some (t, op, (M.apply op s.settled).2) := by
  cases h with
  | pass hpc hb =>
      have hm := (hx t).mp (hpc ▸ trivial)
      have hset : s.settled = s.data := State.settled_of_owner hm hpc
      refine ⟨hset ▸ hb, State.pending_of_owner hm hpc, ?_, ?_⟩
      · rw [State.settled_goto hm, hset]
        rfl
      · rw [State.pending_goto hm, hset]
        rfl

/-- No other step changes the settled data. -/
theorem Step.settled_eq {s s' : State T D O R} {a : Act T O R} (hx : s.Excl) (h : Step M s a s')
    (ha : ∀ t op, a ≠ .pass t op) :
    s'.settled = s.settled ∧ a.served.toList ++ s'.pending.toList = s.pending.toList := by
  -- Which threads are the owner.
  have owner : ∀ {t p}, s.pc t = p → p.Holds → s.mutex = some t :=
    fun hpc hp => (hx _).mp (hpc ▸ hp)
  have other : ∀ {t p}, s.pc t = p → ¬ p.Holds → s.mutex ≠ some t :=
    fun hpc hp hm => hp (hpc ▸ (hx _).mpr hm)
  cases h with
  | call hpc =>
      have hm := other hpc (by simp [Pc.Holds])
      refine ⟨State.settled_goto_of_ne hm, ?_⟩
      rw [State.pending_goto_of_ne hm]
      rfl
  | lock hpc hm =>
      simp [State.settled, State.pending, Act.served, Pc.settle, Pc.pending, hm]
  | relock hpc hm =>
      simp [State.settled, State.pending, Act.served, Pc.settle, Pc.pending, hm]
  | wait hpc _ _ =>
      simp [State.settled, State.pending, Act.served, Pc.settle, Pc.pending, owner hpc trivial, hpc]
  | giveUp hpc _ _ =>
      simp [State.settled, State.pending, Act.served, Pc.settle, Pc.pending, owner hpc trivial, hpc]
  | pass hpc hb => exact absurd rfl (ha _ _)
  | body hpc =>
      -- The update is one of those that the settled data already have.
      simp [State.settled, State.pending, Act.served, Pc.settle, Pc.pending, owner hpc trivial, hpc,
        updates]
  | signalOne hpc hu _ =>
      simp [State.settled, State.pending, Act.served, Pc.settle, Pc.pending, owner hpc trivial, hpc,
        updates]
  | signalNone hpc _ =>
      simp [State.settled, State.pending, Act.served, Pc.settle, Pc.pending, owner hpc trivial, hpc,
        updates]
  | spurious hpc =>
      have hm := other hpc (by simp [Pc.Holds])
      refine ⟨State.settled_goto_of_ne hm, ?_⟩
      rw [State.pending_goto_of_ne hm]
      rfl
  | unlock hpc =>
      simp [State.settled, State.pending, Act.served, Pc.settle, Pc.pending, owner hpc trivial, hpc]
  | refuse hpc =>
      simp [State.settled, State.pending, Act.served, Pc.settle, Pc.pending, owner hpc trivial, hpc]

/-- A step inside a call leaves the operation in its section. -/
theorem Step.pending_eq {s s' : State T D O R} {a : Act T O R} (hx : s.Excl) (h : Step M s a s')
    (ha : ∀ t op, a ≠ .pass t op) (hret : a.served = none) : s'.pending = s.pending := by
  have := (h.settled_eq hx ha).2
  rw [hret, Option.toList_none, List.nil_append] at this
  cases hp : s.pending with
  | none =>
      rw [hp] at this
      exact Option.toList_eq_nil_iff.mp this
  | some x =>
      rw [hp] at this
      exact Option.toList_eq_singleton_iff.mp this

/-- An operation that returns was the one in its section. -/
theorem Step.pending_ret {s s' : State T D O R} {t : T} {op : O} {r : Option R} (hx : s.Excl)
    (h : Step M s (.ret t op r) s') : s.pending = some (t, op, r) ∧ s'.pending = none := by
  have := (h.settled_eq hx (by simp)).2
  cases hp : s.pending with
  | none => simp [hp, Act.served] at this
  | some x =>
      cases hp' : s'.pending with
      | none => simpa [hp, hp', Act.served, eq_comm] using this
      | some y => simp [hp, hp', Act.served] at this

/-- The rule of sections: what every section keeps, run as a whole on data on which it is
not blocked, every step keeps. -/
theorem Step.serve {P : D → List (T × O × Option R) → Prop}
    (next : ∀ d h t op, ¬ M.blocked op d → P d h →
      P (M.apply op d).1 (h ++ [(t, op, (M.apply op d).2)]))
    {s s' : State T D O R} {a : Act T O R} {h : List (T × O × Option R)} (hx : s.Excl)
    (hstep : Step M s a s') (hP : P s.settled (h ++ s.pending.toList)) :
    P s'.settled (h ++ a.served.toList ++ s'.pending.toList) := by
  by_cases ha : ∃ t op, a = .pass t op
  · obtain ⟨t, op, rfl⟩ := ha
    obtain ⟨hb, hpend, hset, hpend'⟩ := hstep.settled_pass hx
    rw [hpend, Option.toList_none, List.append_nil] at hP
    rw [hset, hpend', Act.served, Option.toList_none, List.append_nil]
    exact next _ _ t op hb hP
  · obtain ⟨hset, hserved⟩ := hstep.settled_eq hx fun t op he => ha ⟨t, op, he⟩
    rw [List.append_assoc, hserved, hset]
    exact hP

/-- What every section keeps holds of the settled data of every reachable state. -/
theorem settled_invariant {P : D → Prop} (start : P d₀)
    (next : ∀ d op, ¬ M.blocked op d → P d → P (M.apply op d).1) :
    (machine (T := T) M d₀).Invariant fun s => s.Excl ∧ P s.settled where
  start := by
    intro s hs
    refine ⟨excl_invariant.start s hs, ?_⟩
    obtain rfl := hs
    exact start
  next s a s' _ ih h := by
    refine ⟨excl_step ih.1 h, ?_⟩
    exact Step.serve (P := fun d _ => P d) (h := []) (fun d _ _ op hb hd => next d op hb hd)
      ih.1 h ih.2

/-- The operations served before moment `k`, in the order of their sections. -/
def served {n : Nat} (r : Run (machine (T := T) M d₀) n) (k : Nat) : List (T × O × Option R) :=
  r.seen Act.served k

theorem serve_run {P : D → List (T × O × Option R) → Prop} (start : P d₀ [])
    (next : ∀ d h t op, ¬ M.blocked op d → P d h →
      P (M.apply op d).1 (h ++ [(t, op, (M.apply op d).2)]))
    {n : Nat} (r : Run (machine (T := T) M d₀) n) {k : Nat} (hk : k ≤ n) :
    P (r.st k).settled (served r k ++ (r.st k).pending.toList) := by
  induction k with
  | zero =>
      have h0 : r.st 0 = ⟨d₀, none, fun _ => .idle⟩ := r.start
      rw [h0]
      exact start
  | succ k ih =>
      have hx := excl_invariant.reachable (r.reachable (k := k) (by omega))
      have := Step.serve next hx (r.next k hk) (ih (by omega))
      rwa [served, Run.seen_succ]

/-- At a moment at which the mutex is free. -/
theorem serve_of_free {P : D → List (T × O × Option R) → Prop} (start : P d₀ [])
    (next : ∀ d h t op, ¬ M.blocked op d → P d h →
      P (M.apply op d).1 (h ++ [(t, op, (M.apply op d).2)]))
    {n : Nat} (r : Run (machine (T := T) M d₀) n) {k : Nat} (hk : k ≤ n)
    (hfree : (r.st k).mutex = none) : P (r.st k).data (served r k) := by
  have h := serve_run start next r hk
  rwa [State.settled_of_free hfree, State.pending_of_free hfree, Option.toList_none,
    List.append_nil] at h

end Monitor
