import Mathlib.Tactic

/-!
# Release and acquire

A memory in which a load need not find the last store.  Each location has the list of its stores, in
the order in which they replace each other.  A thread has a *view*: how many stores of each location
it knows, and how many plain loads of each location by each thread.  A load finds some store that is
not behind the view.  A release store carries the view of its thread, and an acquire load that finds
it joins that view into its own.  So what a thread knows is what happened before.

A plain load is a race if there is a store that the thread does not know, and a plain store is a race
if there is a store or a plain load that it does not know (`MayLoad`, `MayStore`).

A store goes behind all stores to its location.  That is the only place for it if the thread knows
them all (`Latest`), as the one thread that stores to a location does.

`AllViews P` is the rule for invariants: if the join keeps `P`, then only the views that a thread
makes by its own stores and loads have to be looked at.
-/

namespace Views

/-- What a thread may know about: stores to a location, and plain loads of it by a thread. -/
inductive Key (L T : Type) where
  | store (l : L)
  | load (l : L) (t : T)
deriving DecidableEq

/-- How many of them are known. -/
abbrev View (L T : Type) := Key L T → Nat

/-- A store, with the view that an acquire load of it gets. -/
structure Msg (L T V : Type) where
  val : V
  view : View L T

structure Memory (L T V : Type) where
  /-- The stores to each location, the initial one first. -/
  hist : L → List (Msg L T V)
  /-- The plain loads so far. -/
  loads : L → T → Nat
  view : T → View L T

variable {L T V : Type}

/-- The view that knows store number `j` of `l` and nothing else. -/
def View.upTo [DecidableEq L] [DecidableEq T] (l : L) (j : Nat) : View L T :=
  Function.update ⊥ (.store l) j

namespace Memory

/-- One store to each location, which all threads know. -/
@[simps] def init (val : L → V) : Memory L T V where
  hist l := [⟨val l, ⊥⟩]
  loads _ _ := 0
  view _ := ⊥

/-- A load of `l` by `t` may find store number `j`. -/
def Finds (m : Memory L T V) (t : T) (l : L) (j : Nat) (msg : Msg L T V) : Prop :=
  m.view t (.store l) ≤ j ∧ (m.hist l)[j]? = some msg

/-- The thread knows the last store. -/
def Latest (m : Memory L T V) (t : T) (l : L) : Prop :=
  (m.hist l).length ≤ m.view t (.store l) + 1

/-- A plain load by `t` is no race. -/
def MayLoad (m : Memory L T V) (t : T) (l : L) : Prop := m.Latest t l

/-- A plain store by `t` is no race. -/
structure MayStore (m : Memory L T V) (t : T) (l : L) : Prop where
  latest : m.Latest t l
  loads : ∀ u, m.loads l u ≤ m.view t (.load l u)

variable [DecidableEq L] [DecidableEq T]

/-- The memory after thread `t` came to know `v`. -/
@[simps] def learn (m : Memory L T V) (t : T) (v : View L T) : Memory L T V :=
  { m with view := Function.update m.view t (m.view t ⊔ v) }

/-- The memory after a store that carries `v`. -/
@[simps] def push (m : Memory L T V) (l : L) (val : V) (v : View L T) : Memory L T V :=
  { m with hist := Function.update m.hist l (m.hist l ++ [⟨val, v⟩]) }

/-- The memory after a relaxed load of store number `j`. -/
def relaxedLoad (m : Memory L T V) (t : T) (l : L) (j : Nat) : Memory L T V :=
  m.learn t (.upTo l j)

/-- The memory after an acquire load of store number `j`, which was `msg`. -/
def acquireLoad (m : Memory L T V) (t : T) (l : L) (j : Nat) (msg : Msg L T V) : Memory L T V :=
  m.learn t (.upTo l j ⊔ msg.view)

/-- The memory after a plain load of store number `j`. -/
def plainLoad (m : Memory L T V) (t : T) (l : L) (j : Nat) : Memory L T V :=
  { m with loads := Function.update m.loads l (Function.update (m.loads l) t (m.loads l t + 1)) }.learn t
    (.upTo l j ⊔ Function.update ⊥ (.load l t) (m.loads l t + 1))

/-- The memory after a plain store. -/
def plainStore (m : Memory L T V) (t : T) (l : L) (val : V) : Memory L T V :=
  (m.push l val ⊥).learn t (.upTo l (m.hist l).length)

/-- The memory after a release store. -/
def releaseStore (m : Memory L T V) (t : T) (l : L) (val : V) : Memory L T V :=
  (m.push l val (m.view t ⊔ .upTo l (m.hist l).length)).learn t (.upTo l (m.hist l).length)

end Memory

variable {m : Memory L T V} {t u : T} {l l' : L} {j : Nat} {msg : Msg L T V} {val : V}
  {v w : View L T} {P : View L T → Prop}

namespace Memory

/-- A load finds the last store if it is known. -/
theorem Finds.eq_last (hf : m.Finds t l j msg) (hl : m.Latest t l) : j + 1 = (m.hist l).length := by
  have hlt := (List.getElem?_eq_some_iff.mp hf.2).1
  have hle := hf.1
  rw [Latest] at hl
  omega

/-- Every view of a thread and of a store has the property. -/
structure AllViews (P : View L T → Prop) (m : Memory L T V) : Prop where
  threads : ∀ t, P (m.view t)
  stores : ∀ l, ∀ msg ∈ m.hist l, P msg.view

theorem AllViews.init (hP : P ⊥) (val : L → V) : AllViews P (init val : Memory L T V) := by
  refine ⟨fun _ => hP, fun l msg hmsg => ?_⟩
  obtain rfl := List.mem_singleton.mp hmsg
  exact hP

/-- Each store to the location was a release store. -/
def Released (m : Memory L T V) (l : L) : Prop :=
  ∀ (j : Nat) (msg : Msg L T V), (m.hist l)[j]? = some msg → j ≤ msg.view (.store l)

theorem Released.init (val : L → V) (l : L) : (init val : Memory L T V).Released l := by
  intro j msg hmsg
  have hj := (List.getElem?_eq_some_iff.mp hmsg).1
  rw [init_hist, List.length_singleton] at hj
  omega

/-- Each thread knows its own plain loads. -/
def KnowsOwn (m : Memory L T V) : Prop := ∀ t l, m.loads l t ≤ m.view t (.load l t)

theorem KnowsOwn.init (val : L → V) : (init val : Memory L T V).KnowsOwn := fun _ _ => Nat.zero_le _

/-! ## Stores -/

section

variable [DecidableEq L]

@[simp] theorem push_hist_self (m : Memory L T V) (l : L) (val : V) (v : View L T) :
    (m.push l val v).hist l = m.hist l ++ [⟨val, v⟩] :=
  Function.update_self ..

theorem push_hist_of_ne (m : Memory L T V) (val : V) (v : View L T) (h : l' ≠ l) :
    (m.push l val v).hist l' = m.hist l' :=
  Function.update_of_ne h ..

/-- A store stays where it is. -/
theorem getElem?_push (h : (m.hist l')[j]? = some msg) (l : L) (val : V) (v : View L T) :
    ((m.push l val v).hist l')[j]? = some msg := by
  by_cases hl : l' = l
  · subst hl
    rw [push_hist_self, List.getElem?_append_left (List.getElem?_eq_some_iff.mp h).1]
    exact h
  · rw [push_hist_of_ne m val v hl]
    exact h

theorem AllViews.push (h : AllViews P m) (l : L) (val : V) (hv : P v) :
    AllViews P (m.push l val v) := by
  refine ⟨h.threads, fun l' msg hmsg => ?_⟩
  by_cases hl : l' = l
  · subst hl
    rw [push_hist_self, List.mem_append, List.mem_singleton] at hmsg
    rcases hmsg with hmsg | rfl
    · exact h.stores l' msg hmsg
    · exact hv
  · rw [push_hist_of_ne m val v hl] at hmsg
    exact h.stores l' msg hmsg

theorem Released.push_of_ne (h : m.Released l) (hne : l ≠ l') (val : V) (v : View L T) :
    (m.push l' val v).Released l := by
  intro j msg hmsg
  rw [push_hist_of_ne m val v hne] at hmsg
  exact h j msg hmsg

end

/-! ## Views -/

section

variable [DecidableEq T]

@[simp] theorem learn_view_self (m : Memory L T V) (t : T) (v : View L T) :
    (m.learn t v).view t = m.view t ⊔ v :=
  Function.update_self ..

theorem learn_view_of_ne (m : Memory L T V) (v : View L T) (h : u ≠ t) :
    (m.learn t v).view u = m.view u :=
  Function.update_of_ne h ..

theorem view_le_learn (m : Memory L T V) (t u : T) (v : View L T) :
    m.view u ≤ (m.learn t v).view u := by
  by_cases h : u = t
  · subst h
    rw [learn_view_self]
    exact le_sup_left
  · rw [learn_view_of_ne m v h]

/-- Nothing new is learned. -/
theorem learn_of_le (h : v ≤ m.view t) : m.learn t v = m := by
  rw [learn, sup_eq_left.mpr h, Function.update_eq_self]

theorem Latest.learn (h : m.Latest u l) (t : T) (v : View L T) : (m.learn t v).Latest u l :=
  Nat.le_trans h (Nat.succ_le_succ (view_le_learn m t u v (.store l)))

theorem AllViews.learn (h : AllViews P m) (hv : P (m.view t ⊔ v)) : AllViews P (m.learn t v) := by
  refine ⟨fun u => ?_, h.stores⟩
  by_cases hu : u = t
  · subst hu
    rw [learn_view_self]
    exact hv
  · rw [learn_view_of_ne m v hu]
    exact h.threads u

theorem KnowsOwn.learn (h : m.KnowsOwn) (t : T) (v : View L T) : (m.learn t v).KnowsOwn :=
  fun u l => (h u l).trans (view_le_learn m t u v (.load l u))

end

end Memory

variable [DecidableEq L] [DecidableEq T]

@[simp] theorem View.upTo_self (l : L) (j : Nat) : (View.upTo l j : View L T) (.store l) = j :=
  Function.update_self ..

@[simp] theorem View.upTo_of_ne {k : Key L T} (h : k ≠ .store l) (j : Nat) : View.upTo l j k = 0 :=
  Function.update_of_ne h ..

@[simp] theorem View.upTo_load (l l' : L) (t : T) (j : Nat) :
    (View.upTo l j : View L T) (.load l' t) = 0 :=
  View.upTo_of_ne (by simp) j

theorem View.upTo_le_iff : View.upTo l j ≤ v ↔ j ≤ v (.store l) := by
  constructor
  · intro h
    simpa using h (.store l)
  · intro h k
    by_cases hk : k = .store l
    · subst hk
      simpa using h
    · rw [View.upTo_of_ne hk]
      exact Nat.zero_le _

namespace Memory

/-- A thread knows of its own store. -/
theorem Latest.store (h : m.Latest t l') (l : L) (val : V) (v : View L T) :
    ((m.push l val v).learn t (.upTo l (m.hist l).length)).Latest t l' := by
  show ((m.push l val v).hist l').length ≤ _
  by_cases hl : l' = l
  · subst hl
    rw [push_hist_self, List.length_append, learn_view_self, Pi.sup_apply, View.upTo_self]
    exact Nat.succ_le_succ le_sup_right
  · rw [push_hist_of_ne m val v hl]
    exact Nat.le_trans h (Nat.succ_le_succ (view_le_learn (m.push l val v) t t _ _))

@[simp] theorem plainStore_hist_self (m : Memory L T V) (t : T) (l : L) (val : V) :
    (m.plainStore t l val).hist l = m.hist l ++ [⟨val, ⊥⟩] :=
  push_hist_self ..

theorem plainStore_hist_of_ne (m : Memory L T V) (t : T) (val : V) (h : l' ≠ l) :
    (m.plainStore t l val).hist l' = m.hist l' :=
  push_hist_of_ne m val ⊥ h

theorem Released.plainStore (h : m.Released l) (hne : l ≠ l') (t : T) (val : V) :
    (m.plainStore t l' val).Released l :=
  h.push_of_ne hne val ⊥

@[simp] theorem releaseStore_hist_self (m : Memory L T V) (t : T) (l : L) (val : V) :
    (m.releaseStore t l val).hist l =
      m.hist l ++ [⟨val, m.view t ⊔ .upTo l (m.hist l).length⟩] :=
  push_hist_self ..

theorem releaseStore_hist_of_ne (m : Memory L T V) (t : T) (val : V) (h : l' ≠ l) :
    (m.releaseStore t l val).hist l' = m.hist l' :=
  push_hist_of_ne m val _ h

/-- A release store to another location. -/
theorem Released.releaseStore_of_ne (h : m.Released l) (hne : l ≠ l') (t : T) (val : V) :
    (m.releaseStore t l' val).Released l :=
  h.push_of_ne hne val _

theorem view_le_plainStore (m : Memory L T V) (t u : T) (l : L) (val : V) :
    m.view u ≤ (m.plainStore t l val).view u :=
  view_le_learn (m.push l val ⊥) t u _

theorem view_le_releaseStore (m : Memory L T V) (t u : T) (l : L) (val : V) :
    m.view u ≤ (m.releaseStore t l val).view u :=
  view_le_learn (m.push l val _) t u _

theorem Released.releaseStore (h : m.Released l) (t : T) (val : V) :
    (m.releaseStore t l val).Released l := by
  intro j msg hmsg
  rw [Memory.releaseStore, learn_hist, push_hist_self, List.getElem?_append] at hmsg
  split at hmsg
  · exact h j msg hmsg
  · next hj =>
    obtain ⟨hlast, rfl⟩ := List.getElem?_eq_some_iff.mp hmsg
    have hj : j = (m.hist l).length := by
      rw [List.length_singleton] at hlast
      omega
    rw [List.getElem_singleton, hj]
    exact (View.upTo_le_iff (j := (m.hist l).length)).mp le_sup_right

@[simp] theorem plainLoad_loads_self (m : Memory L T V) (t : T) (l : L) (j : Nat) :
    (m.plainLoad t l j).loads l t = m.loads l t + 1 := by
  show Function.update m.loads l _ l t = _
  rw [Function.update_self, Function.update_self]

theorem plainLoad_loads_of_ne (m : Memory L T V) (j : Nat) (h : u ≠ t ∨ l' ≠ l) :
    (m.plainLoad t l j).loads l' u = m.loads l' u := by
  show Function.update m.loads l _ l' u = _
  by_cases hl : l' = l
  · subst hl
    rw [Function.update_self, Function.update_of_ne (h.resolve_right (not_not_intro rfl))]
  · rw [Function.update_of_ne hl]

theorem view_le_plainLoad (m : Memory L T V) (t u : T) (l : L) (j : Nat) :
    m.view u ≤ (m.plainLoad t l j).view u :=
  view_le_learn { m with loads := _ } t u _

theorem Latest.plainLoad (h : m.Latest u l') (t : T) (l : L) (j : Nat) :
    (m.plainLoad t l j).Latest u l' :=
  Nat.le_trans h (Nat.succ_le_succ (view_le_plainLoad m t u l j (.store l')))

theorem KnowsOwn.plainLoad (h : m.KnowsOwn) (t : T) (l : L) (j : Nat) :
    (m.plainLoad t l j).KnowsOwn := by
  intro u l'
  by_cases hself : u = t ∧ l' = l
  · obtain ⟨rfl, rfl⟩ := hself
    rw [plainLoad_loads_self, Memory.plainLoad, learn_view_self, Pi.sup_apply, Pi.sup_apply,
      Function.update_self]
    exact le_sup_right.trans le_sup_right
  · rw [plainLoad_loads_of_ne m j (not_and_or.mp hself)]
    exact (h u l').trans (view_le_learn _ t u _ (.load l' u))

/-- A thread that loads what it stored last learns nothing. -/
theorem Latest.relaxedLoad_eq (h : m.Latest t l) (hf : m.Finds t l j msg) :
    m.relaxedLoad t l j = m := by
  refine learn_of_le (View.upTo_le_iff.mpr ?_)
  have := hf.eq_last h
  rw [Latest] at h
  omega

/-- An acquire load of a release store joins the view of the store, which has the place of the store
in it. -/
theorem Released.acquireLoad_eq (h : m.Released l) (hf : m.Finds t l j msg) :
    m.acquireLoad t l j msg = m.learn t msg.view := by
  rw [acquireLoad, sup_eq_right.mpr (View.upTo_le_iff.mpr (h j msg hf.2))]

end Memory

end Views
