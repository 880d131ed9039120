import SystemsDrills.Lib.Exchange

/-!
# Sequentially consistent loads and stores

The sequentially consistent operations have one order, and the machine takes its steps in it.  Such a
store is a release store, and `floor l` is the place of the last one to `l`.  Such a load is an acquire
load that finds no store before that place, also if its thread has not heard of it.  So of two threads
that each store to a location of their own and then load the other one's, one finds the store of the
other.  Nothing else is promised: a release store that came later may be found or not.

`CoversBy A` is what is handed over by a lock that only the threads in `A` take: their plain loads and
all stores, but not the plain loads of the threads outside.
-/

namespace Views

namespace Memory

variable {L T V : Type} {m m' : Memory L T V} {A : Set T} {t u : T} {l l' : L} {j : Nat}
  {msg : Msg L T V} {val : V} {v w : View L T} {floor : L → Nat}

/-! ## One order -/

/-- A sequentially consistent load of `l` by `t` may find store number `j`. -/
structure ScFinds (m : Memory L T V) (floor : L → Nat) (t : T) (l : L) (j : Nat)
    (msg : Msg L T V) : Prop where
  finds : m.Finds t l j msg
  floor_le : floor l ≤ j

/-- The places of the last sequentially consistent stores after one to `l`. -/
def scFloor [DecidableEq L] (m : Memory L T V) (floor : L → Nat) (l : L) : L → Nat :=
  Function.update floor l (m.hist l).length

@[simp] theorem scFloor_self [DecidableEq L] (m : Memory L T V) (floor : L → Nat) (l : L) :
    m.scFloor floor l l = (m.hist l).length :=
  Function.update_self ..

theorem scFloor_of_ne [DecidableEq L] (m : Memory L T V) (floor : L → Nat) (h : l' ≠ l) :
    m.scFloor floor l l' = floor l' :=
  Function.update_of_ne h ..

theorem last_of_add_one_eq (h : j + 1 = (m.hist l).length) (hmsg : (m.hist l)[j]? = some msg) :
    m.Last l msg := by
  rw [Last, List.getLast?_eq_getElem?, ← h]
  exact hmsg

/-- If no other store came after the last sequentially consistent one, it is found. -/
theorem ScFinds.add_one_eq (h : m.ScFinds floor t l j msg) (hl : (m.hist l).length ≤ floor l + 1) :
    j + 1 = (m.hist l).length := by
  have hlt := (List.getElem?_eq_some_iff.mp h.finds.2).1
  have hle := h.floor_le
  omega

theorem ScFinds.last (h : m.ScFinds floor t l j msg) (hl : (m.hist l).length ≤ floor l + 1) :
    m.Last l msg :=
  last_of_add_one_eq (h.add_one_eq hl) h.finds.2

/-- A thread that has all stores finds the last one. -/
theorem Finds.last (h : m.Finds t l j msg) (hl : m.Latest t l) : m.Last l msg :=
  last_of_add_one_eq (h.eq_last hl) h.2

/-! ## What the threads of a lock know -/

/-- The view has every store of the location and every plain load of it by the threads in `A`. -/
structure CoversBy (m : Memory L T V) (A : Set T) (v : View L T) (l : L) : Prop where
  stores : (m.hist l).length ≤ v (.store l) + 1
  loads : ∀ u ∈ A, m.loads l u ≤ v (.load l u)

theorem CoversBy.init (val : L → V) (A : Set T) (v : View L T) (l : L) :
    (init val : Memory L T V).CoversBy A v l :=
  ⟨Nat.le_add_left 1 _, fun _ _ => Nat.zero_le _⟩

/-- Nothing happened to the location but for loads by others. -/
theorem CoversBy.frame (h : m.CoversBy A v l) (hvw : v ≤ w) (hhist : m'.hist l = m.hist l)
    (hloads : ∀ u ∈ A, m'.loads l u = m.loads l u) : m'.CoversBy A w l := by
  refine ⟨?_, fun u hu => ?_⟩
  · rw [hhist]
    exact h.stores.trans (Nat.succ_le_succ (hvw _))
  · rw [hloads u hu]
    exact (h.loads u hu).trans (hvw _)

/-- What the others have loaded is needed besides. -/
theorem CoversBy.mayStore (h : m.CoversBy A (m.view t) l)
    (hrest : ∀ u ∉ A, m.loads l u ≤ m.view t (.load l u)) : m.MayStore t l := by
  refine ⟨h.stores, fun u => ?_⟩
  by_cases hu : u ∈ A
  · exact h.loads u hu
  · exact hrest u hu

variable [DecidableEq L] [DecidableEq T]

/-- A thread knows of its own plain load. -/
theorem CoversBy.plainLoad (h : m.CoversBy A (m.view t) l) (l' : L) (j : Nat) :
    (m.plainLoad t l' j).CoversBy A ((m.plainLoad t l' j).view t) l := by
  refine ⟨h.stores.trans (Nat.succ_le_succ (view_le_plainLoad m t t l' j _)), fun u hu => ?_⟩
  by_cases hself : u = t ∧ l = l'
  · obtain ⟨rfl, rfl⟩ := hself
    rw [plainLoad_loads_self, Memory.plainLoad, learn_view_self, Pi.sup_apply, Pi.sup_apply,
      Function.update_self]
    exact le_sup_right.trans le_sup_right
  · rw [plainLoad_loads_of_ne m j (not_and_or.mp hself)]
    exact (h.loads u hu).trans (view_le_plainLoad m t t l' j _)

/-- A thread knows of its own store. -/
theorem CoversBy.store (h : m.CoversBy A (m.view t) l) (l' : L) (val : V) (v : View L T) :
    ((m.push l' val v).learn t (.upTo l' (m.hist l').length)).CoversBy A
      (((m.push l' val v).learn t (.upTo l' (m.hist l').length)).view t) l :=
  ⟨Latest.store h.stores l' val v,
    fun u hu => (h.loads u hu).trans (view_le_learn (m.push l' val v) t t _ _)⟩

theorem CoversBy.plainStore (h : m.CoversBy A (m.view t) l) (l' : L) (val : V) :
    (m.plainStore t l' val).CoversBy A ((m.plainStore t l' val).view t) l :=
  h.store l' val ⊥

theorem CoversBy.releaseStore (h : m.CoversBy A (m.view t) l) (l' : L) (val : V) :
    (m.releaseStore t l' val).CoversBy A ((m.releaseStore t l' val).view t) l :=
  h.store l' val _

/-- The message of a release store has the view of its thread and the store itself. -/
theorem last_releaseStore (m : Memory L T V) (t : T) (l : L) (val : V) :
    (m.releaseStore t l val).Last l ⟨val, m.view t ⊔ .upTo l (m.hist l).length⟩ :=
  .of_append (releaseStore_hist_self m t l val)

theorem releaseStore_value [Inhabited V] (m : Memory L T V) (t : T) (l : L) (val : V) :
    (m.releaseStore t l val).value = Function.update m.value l val := by
  refine Function.eq_update_iff.mpr ⟨(last_releaseStore m t l val).value_eq, fun l' hl => ?_⟩
  exact value_congr (releaseStore_hist_of_ne m t val hl)

theorem plainStore_value [Inhabited V] (m : Memory L T V) (t : T) (l : L) (val : V) :
    (m.plainStore t l val).value = Function.update m.value l val := by
  refine Function.eq_update_iff.mpr ⟨value_plainStore m t l val, fun l' hl => ?_⟩
  exact value_congr (plainStore_hist_of_ne m t val hl)

theorem KnowsOwn.store (h : m.KnowsOwn) (t : T) (l : L) (val : V) (v : View L T) :
    ((m.push l val v).learn t (.upTo l (m.hist l).length)).KnowsOwn :=
  KnowsOwn.learn (m := m.push l val v) h t _

end Memory

end Views
