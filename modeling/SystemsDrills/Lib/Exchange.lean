import SystemsDrills.Lib.Views

/-!
# Exchanges

An atomic read-modify-write goes right behind the store that it finds, so it finds the last one.  One
with acquire and release gets the view of that store and passes it on together with its own
(`exchange`).  A relaxed one passes the view on without a look at it (`relaxedExchange`).

A location whose stores are all exchanges may guard another one, which is accessed by plain loads and
stores.  `Guards` is the invariant of such a pair: the owner knows every access of the data so far, and
if there is no owner then the last store knows them.  So whoever finds that there is no owner learns of
all accesses, and its own are no races.
-/

namespace Views

variable {L T V : Type} {m m' : Memory L T V} {t u : T} {l l' d : L} {j : Nat} {msg : Msg L T V}
  {val : V} {v w : View L T} {owns owns' : T → Prop}

namespace Memory

/-! ## The last store -/

/-- `msg` is the last store of `l`. -/
def Last (m : Memory L T V) (l : L) (msg : Msg L T V) : Prop := (m.hist l).getLast? = some msg

/-- The value of the last store of `l`. -/
def value [Inhabited V] (m : Memory L T V) (l : L) : V :=
  ((m.hist l).getLast?.map Msg.val).getD default

theorem Last.value_eq [Inhabited V] (h : m.Last l msg) : m.value l = msg.val := by
  rw [value, h]
  rfl

theorem value_congr [Inhabited V] (h : m'.hist l = m.hist l) : m'.value l = m.value l := by
  rw [value, value, h]

@[simp] theorem value_init [Inhabited V] (val : L → V) (l : L) :
    (init val : Memory L T V).value l = val l := rfl

theorem Last.of_append (h : m.hist l = m'.hist l ++ [msg]) : m.Last l msg := by
  rw [Last, h]
  exact List.getLast?_concat

/-! ## Knowing all of a location -/

/-- The view has every store of the location and every plain load of it. -/
structure Covers (m : Memory L T V) (v : View L T) (l : L) : Prop where
  stores : (m.hist l).length ≤ v (.store l) + 1
  loads : ∀ u, m.loads l u ≤ v (.load l u)

theorem MayStore.covers (h : m.MayStore t l) : m.Covers (m.view t) l := ⟨h.latest, h.loads⟩

theorem Covers.mayStore (h : m.Covers (m.view t) l) : m.MayStore t l := ⟨h.stores, h.loads⟩

theorem Covers.init (val : L → V) (v : View L T) (l : L) :
    (init val : Memory L T V).Covers v l :=
  ⟨Nat.le_add_left 1 _, fun _ => Nat.zero_le _⟩

theorem Covers.mono (h : m.Covers v l) (hvw : v ≤ w) : m.Covers w l :=
  ⟨h.stores.trans (Nat.succ_le_succ (hvw _)), fun u => (h.loads u).trans (hvw _)⟩

theorem Covers.congr (h : m.Covers v l) (hhist : m'.hist l = m.hist l)
    (hloads : m'.loads l = m.loads l) : m'.Covers v l :=
  ⟨by rw [hhist]; exact h.stores, by rw [hloads]; exact h.loads⟩

/-- A view that has every store finds only the last one. -/
theorem last_of_length_le (h : (m.hist l).length ≤ v (.store l) + 1) (hj : v (.store l) ≤ j)
    (hmsg : (m.hist l)[j]? = some msg) : m.Last l msg := by
  have hlt := (List.getElem?_eq_some_iff.mp hmsg).1
  rw [Last, List.getLast?_eq_getElem?, ← hmsg]
  congr 1
  omega

/-! ## Guards -/

/-- The data at `d` are handed over through `l`: who owns them knows all accesses, and while nobody does
the last store to `l` knows them. -/
structure Guards (m : Memory L T V) (l d : L) (owns : T → Prop) : Prop where
  owner : ∀ t, owns t → m.MayStore t d
  free : (∀ t, ¬ owns t) → ∀ msg, m.Last l msg → m.Covers msg.view d
  /-- Some thread knows them, also when nobody owns the data. -/
  known : ∃ t, m.MayStore t d

theorem Guards.init [Nonempty T] (val : L → V) (l d : L) (owns : T → Prop) :
    (init val : Memory L T V).Guards l d owns :=
  ⟨fun _ _ => (Covers.init val _ d).mayStore, fun _ msg _ => Covers.init val msg.view d,
    ⟨Classical.arbitrary T, (Covers.init val _ d).mayStore⟩⟩

theorem Guards.congr (h : m.Guards l d owns) (howns : ∀ t, owns' t ↔ owns t) :
    m.Guards l d owns' :=
  ⟨fun t ht => h.owner t ((howns t).mp ht),
    fun hfree => h.free fun t ht => hfree t ((howns t).mpr ht), h.known⟩

/-- A plain access by the only owner. -/
theorem Guards.of_owner (ht : owns t) (hunique : ∀ u, owns u → u = t) (hm : m.MayStore t d) :
    m.Guards l d owns :=
  ⟨fun u hu => hunique u hu ▸ hm, fun hfree => absurd ht (hfree t), ⟨t, hm⟩⟩

variable [DecidableEq L] [DecidableEq T]

/-! ## Read-modify-writes -/

/-- The memory after an atomic exchange, with acquire and release, that found `msg`. -/
def exchange (m : Memory L T V) (t : T) (l : L) (msg : Msg L T V) (val : V) : Memory L T V :=
  (m.acquireLoad t l ((m.hist l).length - 1) msg).releaseStore t l val

/-- The memory after a relaxed read-modify-write that found `msg`.  It is part of the release sequence
of the store that it found. -/
def relaxedExchange (m : Memory L T V) (t : T) (l : L) (msg : Msg L T V) (val : V) : Memory L T V :=
  (m.push l val msg.view).learn t (.upTo l (m.hist l).length)

theorem exchange_hist_of_ne (m : Memory L T V) (t : T) (msg : Msg L T V) (val : V) (h : l' ≠ l) :
    (m.exchange t l msg val).hist l' = m.hist l' :=
  releaseStore_hist_of_ne _ t val h

@[simp] theorem exchange_loads (m : Memory L T V) (t : T) (l : L) (msg : Msg L T V) (val : V) :
    (m.exchange t l msg val).loads = m.loads := rfl

theorem view_le_exchange (m : Memory L T V) (t u : T) (l : L) (msg : Msg L T V) (val : V) :
    m.view u ≤ (m.exchange t l msg val).view u :=
  (view_le_learn m t u _).trans (view_le_releaseStore _ t u l val)

theorem msg_view_le_acquireLoad (m : Memory L T V) (t : T) (l : L) (j : Nat) (msg : Msg L T V) :
    msg.view ≤ (m.acquireLoad t l j msg).view t := by
  rw [acquireLoad, learn_view_self]
  exact le_sup_right.trans le_sup_right

/-- The thread learns what the store that it found knows. -/
theorem msg_view_le_exchange (m : Memory L T V) (t : T) (l : L) (msg : Msg L T V) (val : V) :
    msg.view ≤ (m.exchange t l msg val).view t :=
  (msg_view_le_acquireLoad m t l _ msg).trans (view_le_releaseStore _ t t l val)

/-- The new store knows what its thread and the store before it know. -/
theorem exists_last_exchange (m : Memory L T V) (t : T) (l : L) (msg : Msg L T V) (val : V) :
    ∃ w, (m.exchange t l msg val).Last l ⟨val, w⟩ ∧ m.view t ≤ w ∧ msg.view ≤ w := by
  refine ⟨_, .of_append (releaseStore_hist_self _ t l val), ?_, ?_⟩
  · exact (view_le_learn m t t _).trans le_sup_left
  · exact (msg_view_le_acquireLoad m t l _ msg).trans le_sup_left

@[simp] theorem value_exchange [Inhabited V] (m : Memory L T V) (t : T) (l : L) (msg : Msg L T V)
    (val : V) : (m.exchange t l msg val).value l = val := by
  obtain ⟨w, hlast, -⟩ := exists_last_exchange m t l msg val
  exact hlast.value_eq

theorem MayStore.exchange (h : m.MayStore u d) (hne : d ≠ l) (t : T) (msg : Msg L T V) (val : V) :
    (m.exchange t l msg val).MayStore u d :=
  ((h.covers.congr (exchange_hist_of_ne m t msg val hne) rfl).mono
    (view_le_exchange m t u l msg val)).mayStore

@[simp] theorem value_relaxedExchange [Inhabited V] (m : Memory L T V) (t : T) (l : L)
    (msg : Msg L T V) (val : V) : (m.relaxedExchange t l msg val).value l = val :=
  (Last.of_append (push_hist_self m l val msg.view)).value_eq

/-- The thread of a read-modify-write knows the last store. -/
theorem latest_relaxedExchange (m : Memory L T V) (t : T) (l : L) (msg : Msg L T V) (val : V) :
    (m.relaxedExchange t l msg val).Latest t l := by
  show ((m.push l val msg.view).hist l).length ≤ _
  rw [push_hist_self, List.length_append, relaxedExchange, learn_view_self, Pi.sup_apply,
    View.upTo_self]
  exact Nat.succ_le_succ le_sup_right

theorem latest_exchange (m : Memory L T V) (t : T) (l : L) (msg : Msg L T V) (val : V) :
    (m.exchange t l msg val).Latest t l := by
  show ((m.exchange t l msg val).hist l).length ≤ _
  rw [exchange, releaseStore_hist_self, List.length_append, releaseStore, learn_view_self,
    Pi.sup_apply, View.upTo_self]
  exact Nat.succ_le_succ le_sup_right

/-! ## Plain accesses by one who knows all -/

theorem MayStore.plainLoad (h : m.MayStore t d) (j : Nat) : (m.plainLoad t d j).MayStore t d := by
  refine ⟨h.latest.plainLoad t d j, fun u => ?_⟩
  by_cases hu : u = t
  · subst hu
    rw [plainLoad_loads_self, Memory.plainLoad, learn_view_self, Pi.sup_apply, Pi.sup_apply,
      Function.update_self]
    exact le_sup_right.trans le_sup_right
  · rw [plainLoad_loads_of_ne m j (.inl hu)]
    exact (h.loads u).trans (view_le_plainLoad m t t d j (.load d u))

theorem MayStore.plainStore (h : m.MayStore t d) (val : V) : (m.plainStore t d val).MayStore t d :=
  ⟨h.latest.store d val ⊥, fun u => (h.loads u).trans (view_le_plainStore m t t d val (.load d u))⟩

@[simp] theorem value_plainStore [Inhabited V] (m : Memory L T V) (t : T) (l : L) (val : V) :
    (m.plainStore t l val).value l = val :=
  (Last.of_append (plainStore_hist_self m t l val)).value_eq

/-! ## Handing over -/

/-- The thread of an exchange may become the owner if there is none, or may give the data up. -/
theorem Guards.exchange (h : m.Guards l d owns) (hne : d ≠ l) (hlast : m.Last l msg)
    (htake : ∀ u, owns' u → owns u ∨ u = t ∧ ∀ u, ¬ owns u)
    (hgive : ∀ u, owns u → owns' u ∨ u = t) (val : V) :
    (m.exchange t l msg val).Guards l d owns' := by
  have hhist := exchange_hist_of_ne m t msg val hne
  refine ⟨fun u hu => ?_, fun hnone msg' hlast' => ?_, ?_⟩
  · rcases htake u hu with hu | ⟨rfl, hfree⟩
    · exact (h.owner u hu).exchange hne t msg val
    · exact (((h.free hfree msg hlast).congr hhist rfl).mono
        (msg_view_le_exchange m u l msg val)).mayStore
  · obtain ⟨w, hw, hthread, hmsg⟩ := exists_last_exchange m t l msg val
    obtain rfl : (⟨val, w⟩ : Msg L T V) = msg' := Option.some.inj (hw.symm.trans hlast')
    by_cases hfree : ∀ u, ¬ owns u
    · exact ((h.free hfree msg hlast).congr hhist rfl).mono hmsg
    · obtain ⟨u, hu⟩ := not_forall_not.mp hfree
      obtain rfl := (hgive u hu).resolve_left (hnone u)
      exact ((h.owner u hu).covers.congr hhist rfl).mono hthread
  · obtain ⟨u, hu⟩ := h.known
    exact ⟨u, hu.exchange hne t msg val⟩

/-! ## What there is to know -/

/-- A view of stores that there are. -/
def Has (m : Memory L T V) (v : View L T) : Prop := ∀ l, v (.store l) < (m.hist l).length

/-- No view knows of more stores than there are, so a load finds something. -/
def Bounded (m : Memory L T V) : Prop := m.AllViews m.Has

omit [DecidableEq L] [DecidableEq T] in
theorem Has.sup (hv : m.Has v) (hw : m.Has w) : m.Has (v ⊔ w) := fun l => max_lt (hv l) (hw l)

theorem Has.upTo (h : m.Has v) (hj : j < (m.hist l).length) : m.Has (.upTo l j) := by
  intro l'
  by_cases hl : l' = l
  · subst hl
    rw [View.upTo_self]
    exact hj
  · rw [View.upTo_of_ne (by simpa using hl)]
    exact Nat.zero_lt_of_lt (h l')

omit [DecidableEq L] [DecidableEq T] in
theorem Bounded.init (val : L → V) : (init val : Memory L T V).Bounded :=
  AllViews.init (fun _ => Nat.one_pos) val

omit [DecidableEq L] [DecidableEq T] in
theorem Bounded.exists_last (h : m.Bounded) (t : T) (l : L) : ∃ msg, m.Last l msg := by
  have hpos := Nat.zero_lt_of_lt (h.threads t l)
  exact ⟨_, List.getLast?_eq_some_getLast (List.ne_nil_of_length_pos hpos)⟩

omit [DecidableEq L] [DecidableEq T] in
/-- A load may find the last store. -/
theorem Bounded.finds_last (h : m.Bounded) (t : T) (hlast : m.Last l msg) :
    m.Finds t l ((m.hist l).length - 1) msg := by
  refine ⟨Nat.le_sub_one_of_lt (h.threads t l), ?_⟩
  rw [← List.getLast?_eq_getElem?]
  exact hlast

omit [DecidableEq L] in
theorem Bounded.learn (h : m.Bounded) (t : T) (hv : m.Has v) : (m.learn t v).Bounded :=
  AllViews.learn h ((h.threads t).sup hv)

theorem Bounded.relaxedLoad (h : m.Bounded) (hf : m.Finds t l j msg) : (m.relaxedLoad t l j).Bounded :=
  h.learn t ((h.threads t).upTo (List.getElem?_eq_some_iff.mp hf.2).1)

theorem Bounded.acquireLoad (h : m.Bounded) (hf : m.Finds t l j msg) :
    (m.acquireLoad t l j msg).Bounded :=
  h.learn t (((h.threads t).upTo (List.getElem?_eq_some_iff.mp hf.2).1).sup
    (h.stores l msg (List.mem_of_getElem? hf.2)))

theorem Bounded.plainLoad (h : m.Bounded) (hf : m.Finds t l j msg) : (m.plainLoad t l j).Bounded := by
  have hload : m.Has (Function.update ⊥ (.load l t) (m.loads l t + 1)) := fun l' => by
    rw [Function.update_of_ne (by simp)]
    exact Nat.zero_lt_of_lt (h.threads t l')
  have hlearn := h.learn t
    (((h.threads t).upTo (List.getElem?_eq_some_iff.mp hf.2).1).sup hload)
  exact ⟨hlearn.threads, hlearn.stores⟩

omit [DecidableEq T] in
theorem Has.push (h : m.Has v) (l : L) (val : V) (w : View L T) : (m.push l val w).Has v := by
  intro l'
  by_cases hl : l' = l
  · subst hl
    rw [push_hist_self, List.length_append]
    exact Nat.lt_add_right _ (h l')
  · rw [push_hist_of_ne m val w hl]
    exact h l'

/-- A store of a thread, with a view of what there is then. -/
theorem Bounded.store (h : m.Bounded) (t : T) (l : L) (val : V) (hv : (m.push l val v).Has v) :
    ((m.push l val v).learn t (.upTo l (m.hist l).length)).Bounded := by
  have hpush : (m.push l val v).Bounded :=
    AllViews.push ⟨fun u => (h.threads u).push l val v, fun l' msg hmsg =>
      (h.stores l' msg hmsg).push l val v⟩ l val hv
  refine hpush.learn t ((hpush.threads t).upTo ?_)
  rw [push_hist_self, List.length_append]
  exact Nat.lt_succ_self _

theorem Bounded.plainStore (h : m.Bounded) (t : T) (l : L) (val : V) : (m.plainStore t l val).Bounded :=
  h.store t l val (Has.push (fun l' => Nat.zero_lt_of_lt (h.threads t l')) l val ⊥)

theorem Bounded.releaseStore (h : m.Bounded) (t : T) (l : L) (val : V) :
    (m.releaseStore t l val).Bounded := by
  refine h.store t l val (((h.threads t).push l val _).sup (((h.threads t).push l val _).upTo ?_))
  rw [push_hist_self, List.length_append]
  exact Nat.lt_succ_self _

theorem Bounded.relaxedExchange (h : m.Bounded) (t : T) (hlast : m.Last l msg) (val : V) :
    (m.relaxedExchange t l msg val).Bounded :=
  h.store t l val ((h.stores l msg (List.mem_of_getLast? hlast)).push l val msg.view)

end Memory

end Views
