import SystemsDrills.Lib.Monitor
import Mathlib.Algebra.BigOperators.Fin
import Mathlib.Algebra.BigOperators.Ring.Finset

/-!
# Wakeups in a monitor

Suppose each condition variable stands for a number of tokens, an operation is blocked
when there are none of its condition, takes one of these and gives one of the condition
that it signals (`Tokens`).

A signal that nobody waits for is lost, and a token may be taken by a thread that never
slept.  Still, as long as some thread sleeps, each token has a woken thread that will
look at it (`count_le_woken`).  To keep this along every step, a token may also be left to
a thread that is about to test for it, or that has given it and is about to signal.

The items and the free slots of a bounded queue are its tokens (`Queue`).
-/

namespace Monitor

open Transition

variable {D C O R T : Type} [DecidableEq T] {M : Operations D C O R} {d₀ : D}

/-! ## Tokens -/

/-- Each condition variable stands for a number of tokens.  An operation is blocked when
there are none of its condition, takes one of these and gives one of the condition that
it signals. -/
structure Tokens (M : Operations D C O R) where
  ok : D → Prop
  count : C → D → Nat
  blocked_iff : ∀ {op d}, ok d → (M.blocked op d ↔ count (M.cond op) d = 0)
  keeps : ∀ {op d}, ok d → ¬ M.blocked op d → ok (M.apply op d).1
  takes : ∀ {op d}, ok d → ¬ M.blocked op d →
    count (M.cond op) (M.apply op d).1 + 1 = count (M.cond op) d
  gives : ∀ {op d}, ok d → ¬ M.blocked op d →
    count (M.signal op) (M.apply op d).1 = count (M.signal op) d + 1
  others : ∀ {op d c}, ok d → ¬ M.blocked op d → c ≠ M.cond op → c ≠ M.signal op →
    count c (M.apply op d).1 = count c d

section Wakeups

variable [DecidableEq C] [Fintype T]

/-- The thread sleeps on a condition variable. -/
def Pc.Asleep (M : Operations D C O R) (c : C) : Pc D O R → Prop
  | .asleep op => M.cond op = c
  | _ => False

omit [DecidableEq C] in
theorem Pc.Asleep.exists {c : C} {p : Pc D O R} (h : p.Asleep M c) :
    ∃ op, p = .asleep op ∧ M.cond op = c := by
  cases p with
  | asleep op => exact ⟨op, rfl, h⟩
  | _ => exact h.elim

/-- The thread has been woken and has not tested its condition again. -/
def Pc.isWoken (M : Operations D C O R) (c : C) : Pc D O R → Bool
  | .woken op => M.cond op = c
  | _ => false

/-- How many threads have been woken from a condition variable and have not tested
again. -/
def State.woken (M : Operations D C O R) (s : State T D O R) (c : C) : Nat :=
  (Finset.univ.filter fun t => (s.pc t).isWoken M c).card

/-- Whether a token may be left to the thread: it is going to test for one, or it is
going to wake a thread that will. -/
def Pc.credit (M : Operations D C O R) (c : C) : Pc D O R → Nat
  | .woken op | .test op => if M.cond op = c then 1 else 0
  | .body op _ _ => if M.signal op = c then 1 else 0
  | _ => 0

/-- As long as some thread sleeps, each of `m` tokens may be left to another one. -/
def Answered (M : Operations D C O R) (pc : T → Pc D O R) (c : C) (m : Nat) : Prop :=
  (∃ t, (pc t).Asleep M c) → m ≤ ∑ t, (pc t).credit M c

theorem sum_credit_update (pc : T → Pc D O R) (t : T) (p : Pc D O R) (c : C) :
    (∑ u, (Function.update pc t p u).credit M c) + (pc t).credit M c =
      (∑ u, (pc u).credit M c) + p.credit M c := by
  have rest : ∑ u ∈ Finset.univ.erase t, (Function.update pc t p u).credit M c =
      ∑ u ∈ Finset.univ.erase t, (pc u).credit M c :=
    Finset.sum_congr rfl fun u hu => by rw [Function.update_of_ne (Finset.ne_of_mem_erase hu)]
  have hnew := Finset.add_sum_erase Finset.univ (fun u => (Function.update pc t p u).credit M c)
    (Finset.mem_univ t)
  have hold := Finset.add_sum_erase Finset.univ (fun u => (pc u).credit M c) (Finset.mem_univ t)
  simp only [Function.update_self] at hnew
  omega

/-- A thread moves and the number of tokens changes. -/
theorem Answered.update {pc : T → Pc D O R} {c : C} {m m' : Nat} (h : Answered M pc c m) {t : T}
    {p : Pc D O R}
    (hp : m' = 0 ∨ (p.Asleep M c → (pc t).Asleep M c) ∧
      m' + (pc t).credit M c ≤ m + p.credit M c) :
    Answered M (Function.update pc t p) c m' := by
  rintro ⟨u, hu⟩
  rcases hp with rfl | ⟨hsleep, hle⟩
  · exact Nat.zero_le _
  · have hm : m ≤ ∑ u, (pc u).credit M c := by
      by_cases hut : u = t
      · subst hut
        exact h ⟨u, hsleep (by simpa using hu)⟩
      · exact h ⟨u, by simpa [hut] using hu⟩
    have := sum_credit_update (M := M) pc t p c
    omega

/-- The data are in order, and as long as some thread sleeps, each token may be left to
another one. -/
structure State.Attended (K : Tokens M) (s : State T D O R) : Prop where
  ok : K.ok s.settled
  answered : ∀ c, Answered M s.pc c (K.count c s.settled)

omit [DecidableEq T] in
/-- A step that leaves the settled data alone. -/
theorem State.Attended.step_eq {K : Tokens M} {s s' : State T D O R} (ih : s.Attended K)
    (hset : s'.settled = s.settled)
    (h : ∀ c, Answered M s.pc c (K.count c s.settled) → Answered M s'.pc c (K.count c s.settled)) :
    s'.Attended K :=
  ⟨hset ▸ ih.ok, fun c => hset ▸ h c (ih.answered c)⟩

omit [DecidableEq T] in
/-- The test of the owner found no token. -/
theorem State.Attended.count_eq_zero {K : Tokens M} {s : State T D O R} (hx : s.Excl)
    (ih : s.Attended K) {t : T} {op : O} (hpc : s.pc t = .test op) (hb : M.blocked op s.data) :
    K.count (M.cond op) s.settled = 0 := by
  have hset : s.settled = s.data := State.settled_of_owner ((hx t).mp (hpc ▸ trivial)) hpc
  rw [← hset] at hb
  exact (K.blocked_iff ih.ok).mp hb

/-- A thread moves, and what may be left to it may still be. -/
theorem State.Attended.move {K : Tokens M} {s s' : State T D O R} (ih : s.Attended K)
    (hset : s'.settled = s.settled) {t : T} {p : Pc D O R} (hpc : s'.pc = Function.update s.pc t p)
    (hsleep : ∀ c, p.Asleep M c → (s.pc t).Asleep M c)
    (hcredit : ∀ c, (s.pc t).credit M c ≤ p.credit M c) : s'.Attended K := by
  refine ih.step_eq hset fun c hc => ?_
  rw [hpc]
  exact hc.update (.inr ⟨hsleep c, Nat.add_le_add_left (hcredit c) _⟩)

/-- A thread whose test failed moves.  There is no token of the condition that it may
sleep on. -/
theorem State.Attended.blocked {K : Tokens M} {s s' : State T D O R} (hx : s.Excl)
    (ih : s.Attended K) (hset : s'.settled = s.settled) {t : T} {op : O} {p : Pc D O R}
    (ht : s.pc t = .test op) (hb : M.blocked op s.data) (hpc : s'.pc = Function.update s.pc t p)
    (hsleep : ∀ c, p.Asleep M c → M.cond op = c) : s'.Attended K := by
  have h0 := ih.count_eq_zero hx ht hb
  refine ih.step_eq hset fun c hc => ?_
  rw [hpc]
  refine hc.update ?_
  by_cases hcond : M.cond op = c
  · exact .inl (hcond ▸ h0)
  · refine .inr ⟨fun h => absurd (hsleep c h) hcond, ?_⟩
    simp [ht, Pc.credit, hcond]

/-- A thread whose test succeeded takes the token that it was left, and may be left the one
that it is going to give. -/
theorem State.Attended.pass {K : Tokens M} {s : State T D O R} (hx : s.Excl) (ih : s.Attended K)
    {t : T} {op : O} (hpc : s.pc t = .test op) (hb : ¬ M.blocked op s.data) :
    (s.goto t (.body op (M.body op) none)).Attended K := by
  obtain ⟨hb', -, hset, -⟩ := (Step.pass hpc hb).settled_pass hx
  refine ⟨hset ▸ K.keeps ih.ok hb', fun c => hset ▸ (ih.answered c).update (.inr ?_)⟩
  have htakes := K.takes ih.ok hb'
  have hgives := K.gives ih.ok hb'
  simp only [hpc, Pc.Asleep, false_implies, Pc.credit, true_and]
  by_cases h1 : M.cond op = c
  · have h2 : M.signal op ≠ c := by
      rintro rfl
      rw [h1] at htakes
      omega
    subst h1
    simp only [if_true, h2, if_false]
    omega
  · by_cases h2 : M.signal op = c
    · subst h2
      simp only [h1, if_true, if_false]
      omega
    · simp only [h1, h2, if_false, K.others ih.ok hb' (Ne.symm h1) (Ne.symm h2), le_refl]

/-- The thread that is woken answers for the token that was given. -/
theorem State.Attended.signalOne {K : Tokens M} {s s' : State T D O R} (ih : s.Attended K)
    (hset : s'.settled = s.settled) {t u : T} {op op' : O} {r : Option R}
    (ht : s.pc t = .body op [] r) (hu : s.pc u = .asleep op') (hcond : M.cond op' = M.signal op)
    (hpc : s'.pc = Function.update (Function.update s.pc u (.woken op')) t (.unlock op r)) :
    s'.Attended K := by
  have hne := State.ne_of_pc ht hu (by simp)
  refine ih.step_eq hset fun c hc => ?_
  rw [hpc]
  refine Answered.update (m := K.count c s.settled + if M.signal op = c then 1 else 0)
    (hc.update (.inr ?_)) (.inr ?_)
  · simp [hu, Pc.Asleep, Pc.credit, hcond]
  · simp [hne, ht, Pc.Asleep, Pc.credit]

/-- Nobody sleeps on the condition that is signalled. -/
theorem State.Attended.signalNone {K : Tokens M} {s s' : State T D O R} (ih : s.Attended K)
    (hset : s'.settled = s.settled) {t : T} {op : O} {r : Option R} (ht : s.pc t = .body op [] r)
    (hnone : ∀ u op', s.pc u = .asleep op' → M.cond op' ≠ M.signal op)
    (hpc : s'.pc = Function.update s.pc t (.unlock op r)) : s'.Attended K := by
  refine ih.step_eq hset fun c hc => ?_
  rw [hpc]
  by_cases hcond : M.signal op = c
  · rintro ⟨u, hu⟩
    by_cases hut : u = t
    · subst hut
      simp [Pc.Asleep] at hu
    · rw [Function.update_of_ne hut] at hu
      obtain ⟨op', hsleep, hc'⟩ := Pc.Asleep.exists hu
      exact absurd (hc'.trans hcond.symm) (hnone u op' hsleep)
  · exact hc.update (.inr (by simp [ht, Pc.Asleep, Pc.credit, hcond]))

theorem attended_step {K : Tokens M} {s s' : State T D O R} {a : Act T O R} (hx : s.Excl)
    (ih : s.Attended K) (h : Step M s a s') : s'.Attended K := by
  have hset := fun ha => (h.settled_eq hx ha).1
  cases h with
  | call hpc => exact ih.move (hset (by simp)) rfl (fun _ h => h.elim) (by simp [hpc, Pc.credit])
  | lock hpc _ => exact ih.move (hset (by simp)) rfl (fun _ h => h.elim) (by simp [hpc, Pc.credit])
  | relock hpc _ => exact ih.move (hset (by simp)) rfl (fun _ h => h.elim) (by simp [hpc, Pc.credit])
  | wait hpc hb _ => exact ih.blocked hx (hset (by simp)) hpc hb rfl fun _ h => h
  | giveUp hpc hb _ => exact ih.blocked hx (hset (by simp)) hpc hb rfl fun _ h => h.elim
  | pass hpc hb => exact ih.pass hx hpc hb
  | body hpc => exact ih.move (hset (by simp)) rfl (fun _ h => h.elim) (by simp [hpc, Pc.credit])
  | signalOne hpc hu hcond => exact ih.signalOne (hset (by simp)) hpc hu hcond rfl
  | signalNone hpc hnone => exact ih.signalNone (hset (by simp)) hpc hnone rfl
  | spurious hpc => exact ih.move (hset (by simp)) rfl (fun _ h => h.elim) (by simp [hpc, Pc.credit])
  | unlock hpc => exact ih.move (hset (by simp)) rfl (fun _ h => h.elim) (by simp [hpc, Pc.credit])
  | refuse hpc => exact ih.move (hset (by simp)) rfl (fun _ h => h.elim) (by simp [hpc, Pc.credit])

theorem attended_invariant {K : Tokens M} (h0 : K.ok d₀) :
    (machine (T := T) M d₀).Invariant fun s => s.Excl ∧ s.Attended K where
  start := by
    intro s hs
    refine ⟨excl_invariant.start s hs, ?_⟩
    obtain rfl := hs
    refine ⟨h0, fun c => ?_⟩
    rintro ⟨t, ht⟩
    exact ht.elim
  next _ _ _ _ ih h := ⟨excl_step ih.1 h, attended_step ih.1 ih.2 h⟩

omit [DecidableEq T] in
/-- With the mutex free only woken threads are left to look for a token. -/
theorem sum_credit_of_free {s : State T D O R} (hx : s.Excl) (hfree : s.mutex = none) (c : C) :
    ∑ t, (s.pc t).credit M c = s.woken M c := by
  rw [State.woken, Finset.card_filter]
  refine Finset.sum_congr rfl fun t _ => ?_
  have hout : ¬ (s.pc t).Holds := by
    rw [hx t, hfree]
    simp
  cases hpc : s.pc t with
  | woken op => simp [Pc.credit, Pc.isWoken]
  | test op => simp [hpc, Pc.Holds] at hout
  | body op todo r => simp [hpc, Pc.Holds] at hout
  | idle | lock op | asleep op | unlock op r | refuse op => rfl

section Reachable

variable {K : Tokens M} (h0 : K.ok d₀) {s : State T D O R}
  (hs : (machine (T := T) M d₀).Reachable s)
include h0 hs

/-- No stuck sleeper: while some thread sleeps on `c`, there are at least as many threads
woken from `c` that have not tested again as there are tokens. -/
theorem count_le_woken (hfree : s.mutex = none) {t : T} {op : O} (hpc : s.pc t = .asleep op) :
    K.count (M.cond op) s.data ≤ s.woken M (M.cond op) := by
  obtain ⟨hx, hatt⟩ := (attended_invariant h0).reachable hs
  have hle := hatt.answered (M.cond op) ⟨t, by rw [hpc]; rfl⟩
  rwa [State.settled_of_free hfree, sum_credit_of_free hx hfree] at hle

/-- If every thread that is in a call sleeps, the mutex is free and nobody was woken. -/
theorem free_of_all_asleep (hall : ∀ t, s.pc t = .idle ∨ ∃ op, s.pc t = .asleep op) :
    s.mutex = none ∧ ∀ c, s.woken M c = 0 := by
  obtain ⟨hx, -⟩ := (attended_invariant h0).reachable hs
  refine ⟨?_, fun c => ?_⟩
  · cases hm : s.mutex with
    | none => rfl
    | some t =>
        have hholds := (hx t).mpr hm
        rcases hall t with h | ⟨op, h⟩
        · simp [h, Pc.Holds] at hholds
        · simp [h, Pc.Holds] at hholds
  · rw [State.woken, Finset.card_eq_zero, Finset.filter_eq_empty_iff]
    intro t _
    rcases hall t with h | ⟨op, h⟩
    · simp [h, Pc.isWoken]
    · simp [h, Pc.isWoken]

/-- If every thread that is in a call sleeps, none of them could go on. -/
theorem count_eq_zero_of_all_asleep (hall : ∀ t, s.pc t = .idle ∨ ∃ op, s.pc t = .asleep op)
    {t : T} {op : O} (hpc : s.pc t = .asleep op) : K.count (M.cond op) s.data = 0 := by
  obtain ⟨hfree, hwoken⟩ := free_of_all_asleep h0 hs hall
  have hle := count_le_woken h0 hs hfree hpc
  rw [hwoken] at hle
  exact Nat.le_zero.mp hle

end Reachable

end Wakeups

/-! ## Bounded queues -/

/-- The condition variables of a bounded queue. -/
inductive QueueCond where
  | notEmpty
  | notFull
deriving DecidableEq, Repr

/-- The operation puts one item. -/
structure Puts (M : Operations D QueueCond O R) (items cap : D → Nat) (op : O) (d : D) :
    Prop where
  cond : M.cond op = .notFull
  signal : M.signal op = .notEmpty
  blocked_iff : M.blocked op d ↔ items d = cap d
  items : ¬ M.blocked op d → items (M.apply op d).1 = items d + 1

/-- The operation gets one item. -/
structure Gets (M : Operations D QueueCond O R) (items : D → Nat) (op : O) (d : D) : Prop where
  cond : M.cond op = .notEmpty
  signal : M.signal op = .notFull
  blocked_iff : M.blocked op d ↔ items d = 0
  items : ¬ M.blocked op d → items (M.apply op d).1 + 1 = items d

/-- The operations are those of a queue with at most `cap` items. -/
structure Queue (M : Operations D QueueCond O R) where
  items : D → Nat
  cap : D → Nat
  cap_eq : ∀ op d, cap (M.apply op d).1 = cap d
  kind : ∀ op d, items d ≤ cap d → Puts M items cap op d ∨ Gets M items op d

namespace Queue

variable {M : Operations D QueueCond O R}

/-- The items and the free slots of a queue are its tokens. -/
def tokens (Q : Queue M) : Tokens M where
  ok d := Q.items d ≤ Q.cap d
  count
    | .notEmpty, d => Q.items d
    | .notFull, d => Q.cap d - Q.items d
  blocked_iff := by
    intro op d hd
    rcases Q.kind op d hd with h | h
    · rw [h.blocked_iff]
      simp only [h.cond]
      omega
    · rw [h.blocked_iff]
      simp only [h.cond]
  keeps := by
    intro op d hd hb
    have hcap := Q.cap_eq op d
    rcases Q.kind op d hd with h | h
    · have hitems := h.items hb
      rw [h.blocked_iff] at hb
      omega
    · have hitems := h.items hb
      omega
  takes := by
    intro op d hd hb
    have hcap := Q.cap_eq op d
    rcases Q.kind op d hd with h | h
    · have hitems := h.items hb
      rw [h.blocked_iff] at hb
      simp only [h.cond]
      omega
    · simp only [h.cond]
      exact h.items hb
  gives := by
    intro op d hd hb
    have hcap := Q.cap_eq op d
    rcases Q.kind op d hd with h | h
    · simp only [h.signal]
      exact h.items hb
    · have hitems := h.items hb
      simp only [h.signal]
      omega
  others := by
    intro op d c hd hb h1 h2
    rcases Q.kind op d hd with h | h
    · rw [h.cond] at h1
      rw [h.signal] at h2
      cases c <;> contradiction
    · rw [h.cond] at h1
      rw [h.signal] at h2
      cases c <;> contradiction

variable {Q : Queue M} [Fintype T] {s : State T D O R} (h0 : Q.items d₀ ≤ Q.cap d₀)
  (hs : (machine (T := T) M d₀).Reachable s)
include h0 hs

/-- While some getter sleeps, each item has a getter that was woken and has not tested
again. -/
theorem items_le_woken (hfree : s.mutex = none) {t : T} {op : O} (hpc : s.pc t = .asleep op)
    (hop : M.cond op = .notEmpty) : Q.items s.data ≤ s.woken M .notEmpty := by
  have h := count_le_woken (K := Q.tokens) h0 hs hfree hpc
  rwa [hop] at h

/-- While some putter sleeps, each free slot has a putter that was woken and has not tested
again. -/
theorem room_le_woken (hfree : s.mutex = none) {t : T} {op : O} (hpc : s.pc t = .asleep op)
    (hop : M.cond op = .notFull) : Q.cap s.data - Q.items s.data ≤ s.woken M .notFull := by
  have h := count_le_woken (K := Q.tokens) h0 hs hfree hpc
  rwa [hop] at h

/-- If every thread that is in a call sleeps, none of them could go on. -/
theorem blocked_of_all_asleep (hall : ∀ t, s.pc t = .idle ∨ ∃ op, s.pc t = .asleep op) {t : T}
    {op : O} (hpc : s.pc t = .asleep op) : M.blocked op s.data := by
  obtain ⟨-, hatt⟩ := (attended_invariant (K := Q.tokens) h0).reachable hs
  have hfree := (free_of_all_asleep (K := Q.tokens) h0 hs hall).1
  have hok := hatt.ok
  rw [State.settled_of_free hfree] at hok
  exact (Q.tokens.blocked_iff hok).mpr (count_eq_zero_of_all_asleep h0 hs hall hpc)

theorem cap_data (hall : ∀ t, s.pc t = .idle ∨ ∃ op, s.pc t = .asleep op) :
    Q.cap s.data = Q.cap d₀ := by
  have hinv := settled_invariant (T := T) (M := M) (P := fun d => Q.cap d = Q.cap d₀) rfl
    (fun d op _ hd => (Q.cap_eq op d).trans hd)
  have hcap := (hinv.reachable hs).2
  rwa [State.settled_of_free (free_of_all_asleep (K := Q.tokens) h0 hs hall).1] at hcap

/-- They are not putters and getters at once. -/
theorem one_kind_of_all_asleep (hcap : 0 < Q.cap d₀)
    (hall : ∀ t, s.pc t = .idle ∨ ∃ op, s.pc t = .asleep op) {t u : T} {op op' : O}
    (ht : s.pc t = .asleep op) (hu : s.pc u = .asleep op') (hput : M.cond op = .notFull)
    (hget : M.cond op' = .notEmpty) : False := by
  have hfull := count_eq_zero_of_all_asleep (K := Q.tokens) h0 hs hall ht
  have hempty := count_eq_zero_of_all_asleep (K := Q.tokens) h0 hs hall hu
  rw [hput] at hfull
  rw [hget] at hempty
  rw [← cap_data h0 hs hall] at hcap
  simp only [tokens] at hfull hempty
  omega

end Queue

end Monitor
