import SystemsDrills.Rcu.Linearizable
import SystemsDrills.Rcu.Views

/-!
# The memory orders of the mini-RCU are enough

Every execution on the memory with views is one of the interleaved machine, with the same calls, answers,
publishes and frees, and no access of a table is a race.

The two machines differ in `wait_for_readers` only.  There a writer may find a number that its reader
has left behind, and goes on waiting though the reader is gone.  The interleaved writer passes the
reader as soon as it leaves, so it may be one reader further (`Follows`).

What the writer learns where it passes a reader makes the `free` safe.  A message of `seq` knows all
loads of its reader, but for those of the table that the reader holds (`Told`).  While a reader is in a
section nothing came after the store of `read_begin`, so the writer's first load finds that very store
(`Tail`): this is what sequential consistency is for.
-/

namespace Rcu

open Transition Views GuestMemory GuestMemory.Sorted

variable {W : Type}

/-! ## What the writers know -/

/-- The locations that are stored to under the mutex only. -/
def Loc.Locked : Loc → Prop
  | .seq _ => False
  | _ => True

/-- Who has `v` knows all stores and all loads made under the mutex. -/
def Covered (m : Memory Loc (Thread W) Val) (v : View Loc (Thread W)) : Prop :=
  ∀ l : Loc, l.Locked → m.CoversBy (Set.range .inr) v l

/-- The holder of the mutex knows them, and if there is none they are handed over. -/
structure Mutexed (m : Memory Loc (Thread W) Val) (lock : Option W) (handed : View Loc (Thread W))
    (writer : W → WriterPc) : Prop where
  owner : ∀ w, (writer w).locked → Covered m (m.view (.inr w))
  free : lock = none → Covered m handed

/-! ## What the pointer hands over -/

/-- The block that `current` points to. -/
def currentBlock (m : Memory Loc (Thread W) Val) : Nat := (m.value .current).toPtr

structure Published (m : Memory Loc (Thread W) Val) (floor : Loc → Nat)
    (reader : Fin maxReaders → ReaderPc) : Prop where
  /-- All stores to `current` are sequentially consistent. -/
  newest : (m.hist .current).length ≤ floor .current + 1
  /-- The store of the current pointer knows all stores to its table. -/
  built : ∀ msg, m.Last .current msg →
    (m.hist (.block msg.val.toPtr)).length ≤ msg.view (.store (.block msg.val.toPtr)) + 1
  held : ∀ i p, (reader i).holds = some p → m.Latest (.inl i) (.block p)

/-! ## What the numbers hand over -/

/-- After the last sequentially consistent store to a number there is nothing, or one store that ends
the section. -/
def Tail (hist : List (Msg Loc (Thread W) Val)) (floor : Nat) : Prop :=
  hist.length = floor + 1 ∨
    hist.length = floor + 2 ∧
      (∀ msg, hist[floor]? = some msg → inSection msg.val.toNum = true) ∧
      ∀ msg, hist.getLast? = some msg → inSection msg.val.toNum = false

/-- What reader `i` knows, and what its last store tells. -/
structure Told (m : Memory Loc (Thread W) Val) (floor : Loc → Nat) (i : Fin maxReaders)
    (pc : ReaderPc) : Prop where
  latest : m.Latest (.inl i) (.seq i)
  tail : Tail (m.hist (.seq i)) (floor (.seq i))
  told : ∀ p, pc.holds ≠ some p → ∀ msg, m.Last (.seq i) msg →
    m.loads (.block p) (.inl i) ≤ msg.view (.load (.block p) (.inl i))

/-! ## What a waiting writer has learned -/

/-- A writer at this place has passed reader `i` on its way to free block `p`. -/
def WriterPc.Passed (p : Nat) (i : Fin maxReaders) : WriterPc → Prop
  | .wait _ old k => old = p ∧ i < k
  | .spin _ old k _ => old = p ∧ i < k
  | .free _ old => old = p
  | _ => False

/-- The writer's loads of the number `seq i` may find some later number, and then it learns of all loads
of `old`. -/
def Informs (m : Memory Loc (Thread W) Val) (w : W) (old : Nat) (i : Fin maxReaders) (v : UInt64) :
    Prop :=
  ∀ j msg, m.view (.inr w) (.store (.seq i)) ≤ j → (m.hist (.seq i))[j]? = some msg →
    msg.val.toNum ≠ v → m.loads (.block old) (.inl i) ≤ msg.view (.load (.block old) (.inl i))

/-- The writer has the number `v` of a reader that is still in the section. -/
structure Current (m : Memory Loc (Thread W) Val) (w : W) (i : Fin maxReaders) (v : UInt64) :
    Prop where
  inSection : inSection v = true
  value : (m.value (.seq i)).toNum = v
  latest : m.Latest (.inr w) (.seq i)

/-- Where the interleaved writer is. -/
def Follows (m : Memory Loc (Thread W) Val) (w : W) : WriterPc → WriterPc → Prop
  | .spin rgn old i v, pc =>
      pc = .spin rgn old i v ∧ Current m w i v ∨ pc = .wait rgn old (i + 1) ∧ Informs m w old i v
  | pc', pc => pc = pc'

/-- The new block of a writer. -/
def WriterPc.builds : WriterPc → Option Nat
  | .fill _ _ new _ _ | .publish _ _ new => some new
  | _ => none

/-- The last stores, with the writers at the places of the interleaved machine. -/
@[simps] def ViewState.seen (s : ViewState W) (wr : W → WriterPc) : State W where
  current := currentBlock s.mem
  heap p := (s.mem.value (.block p)).toCell
  lock := s.lock
  seq i := (s.mem.value (.seq i)).toNum
  reader := s.reader
  writer := wr

/-- No reader has loaded from the block, since it was never published. -/
def ViewState.Untouched (s : ViewState W) (p : Nat) : Prop :=
  (s.mem.value (.block p)).toCell = .fresh ∨ ∃ w, (s.writer w).builds = some p

/-- The last stores are a state of the interleaved machine, and the views are as the accesses need
them. -/
structure ViewState.Inv [DecidableEq W] (s : ViewState W) (wr : W → WriterPc) : Prop where
  reachable : (machine W).Reachable (s.seen wr)
  follows : ∀ w, Follows s.mem w (s.writer w) (wr w)
  own : s.mem.KnowsOwn
  mutexed : Mutexed s.mem s.lock s.handed s.writer
  published : Published s.mem s.floor s.reader
  told : ∀ i, Told s.mem s.floor i (s.reader i)
  passed : ∀ w p i, (s.writer w).Passed p i →
    s.mem.loads (.block p) (.inl i) ≤ s.mem.view (.inr w) (.load (.block p) (.inl i))
  unread : ∀ i p, s.Untouched p → s.mem.loads (.block p) (.inl i) = 0

/-! ## One lemma a part -/

section

variable {m m' : Memory Loc (Thread W) Val} {v v' : View Loc (Thread W)} {w : W}
  {i : Fin maxReaders} {pc pc' : WriterPc} {floor floor' : Loc → Nat}

theorem Covered.frame (h : Covered m v) (hv : v ≤ v')
    (hhist : ∀ l : Loc, l.Locked → m'.hist l = m.hist l)
    (hloads : ∀ (l : Loc) (w : W), m'.loads l (.inr w) = m.loads l (.inr w)) : Covered m' v' := by
  refine fun l hl => (h l hl).frame hv (hhist l hl) ?_
  rintro _ ⟨w, rfl⟩
  exact hloads l w

variable [DecidableEq W]

theorem Covered.plainLoad (h : Covered m (m.view (.inr w))) (l : Loc) (j : Nat) :
    Covered (m.plainLoad (.inr w) l j) ((m.plainLoad (.inr w) l j).view (.inr w)) :=
  fun l' hl' => (h l' hl').plainLoad l j

theorem Covered.plainStore (h : Covered m (m.view (.inr w))) (l : Loc) (val : Val) :
    Covered (m.plainStore (.inr w) l val) ((m.plainStore (.inr w) l val).view (.inr w)) :=
  fun l' hl' => (h l' hl').plainStore l val

theorem Covered.releaseStore (h : Covered m (m.view (.inr w))) (l : Loc) (val : Val) :
    Covered (m.releaseStore (.inr w) l val) ((m.releaseStore (.inr w) l val).view (.inr w)) :=
  fun l' hl' => (h l' hl').releaseStore l val

theorem Covered.learn (h : Covered m (m.view (.inr w))) (v : View Loc (Thread W)) :
    Covered (m.learn (.inr w) v) ((m.learn (.inr w) v).view (.inr w)) :=
  h.frame (Memory.view_le_learn m (.inr w) (.inr w) v) (fun _ _ => rfl) fun _ _ => rfl

variable {lock : Option W} {handed : View Loc (Thread W)} {writer : W → WriterPc}

omit [DecidableEq W] in
/-- A step of a reader. -/
theorem Mutexed.frame (h : Mutexed m lock handed writer)
    (hview : ∀ w, m.view (.inr w) ≤ m'.view (.inr w))
    (hhist : ∀ l : Loc, l.Locked → m'.hist l = m.hist l)
    (hloads : ∀ (l : Loc) (w : W), m'.loads l (.inr w) = m.loads l (.inr w)) :
    Mutexed m' lock handed writer :=
  ⟨fun w hw => (h.owner w hw).frame (hview w) hhist hloads,
    fun hl => (h.free hl).frame le_rfl hhist hloads⟩

/-- A step of a writer outside the lock. -/
theorem Mutexed.goto (h : Mutexed m lock handed writer) (w : W) (hpc : pc.locked = false) :
    Mutexed m lock handed (Function.update writer w pc) := by
  refine ⟨(Function.forall_update_iff writer fun w pc => pc.locked → Covered m (m.view (.inr w))).mpr
    ⟨fun hl => ?_, fun w' _ => h.owner w'⟩, h.free⟩
  rw [hpc] at hl
  cases hl

/-- A step of the only writer inside. -/
theorem Mutexed.of_owner (hcov : Covered m (m.view (.inr w)))
    (halone : ∀ w', w' ≠ w → (writer w').locked = false) :
    Mutexed m (some w) handed (Function.update writer w pc) := by
  refine ⟨(Function.forall_update_iff writer fun w pc => pc.locked → Covered m (m.view (.inr w))).mpr
    ⟨fun _ => hcov, fun w' hne hl => ?_⟩, nofun⟩
  rw [halone w' hne] at hl
  cases hl

/-- The only writer inside leaves. -/
theorem Mutexed.unlock (hcov : Covered m v)
    (halone : ∀ w', w' ≠ w → (writer w').locked = false)
    (hpc : pc.locked = false) : Mutexed m none v (Function.update writer w pc) := by
  refine ⟨(Function.forall_update_iff writer fun w pc => pc.locked → Covered m (m.view (.inr w))).mpr
    ⟨fun hl => ?_, fun w' hne hl => ?_⟩, fun _ => hcov⟩
  · rw [hpc] at hl
    cases hl
  · rw [halone w' hne] at hl
    cases hl

variable {reader reader' : Fin maxReaders → ReaderPc} {rpc rpc' : ReaderPc}

omit [DecidableEq W] in
/-- No table that somebody reads is stored to, and nobody comes to hold one. -/
theorem Published.frame (h : Published m floor reader) (hview : ∀ t, m.view t ≤ m'.view t)
    (hcur : m'.hist .current = m.hist .current) (hfloor : floor' .current = floor .current)
    (hblock : ∀ p, (p = currentBlock m ∨ ∃ i, (reader i).holds = some p) →
      m'.hist (.block p) = m.hist (.block p))
    (hheld : ∀ i p, (reader' i).holds = some p → (reader i).holds = some p) :
    Published m' floor' reader' := by
  refine ⟨?_, fun msg hmsg => ?_, fun i p hp => ?_⟩
  · rw [hcur, hfloor]
    exact h.newest
  · rw [Memory.Last, hcur] at hmsg
    rw [hblock _ (.inl (by rw [currentBlock, Memory.Last.value_eq hmsg]))]
    exact h.built msg hmsg
  · have hp' := hheld i p hp
    rw [Memory.Latest, hblock p (.inr ⟨i, hp'⟩)]
    exact (h.held i p hp').trans (Nat.succ_le_succ (hview _ _))

/-- A reader loads the pointer. -/
theorem Published.loadCurrent (h : Published m floor reader) {j : Nat} {msg : Msg Loc (Thread W) Val}
    (hf : m.ScFinds floor (.inl i) .current j msg) (hpc : rpc.holds = some msg.val.toPtr) :
    Published (m.acquireLoad (.inl i) .current j msg) floor (Function.update reader i rpc) := by
  refine ⟨h.newest, h.built, (Function.forall_update_iff reader fun i rpc => ∀ p,
    rpc.holds = some p → (m.acquireLoad _ .current j msg).Latest (.inl i) (.block p)).mpr
      ⟨fun p hp => ?_, fun i' _ p hp => ?_⟩⟩
  · obtain rfl := Option.some.inj (hpc.symm.trans hp)
    exact (h.built msg (hf.last h.newest)).trans
      (Nat.succ_le_succ (Memory.msg_view_le_acquireLoad m (.inl i) .current j msg _))
  · exact Memory.Latest.learn (h.held i' p hp) _ _

/-- A writer stores the pointer. -/
theorem Published.publish (h : Published m floor reader) (hcov : Covered m (m.view (.inr w)))
    (p : Nat) :
    Published (m.releaseStore (.inr w) .current (.ptr p)) (m.scFloor floor .current) reader := by
  have hblock : ∀ q, (m.releaseStore (.inr w) .current (.ptr p)).hist (.block q) = m.hist (.block q) :=
    fun q => Memory.releaseStore_hist_of_ne m (.inr w) (.ptr p) nofun
  refine ⟨?_, fun msg hmsg => ?_, fun i q hq => ?_⟩
  · rw [Memory.scFloor_self, Memory.releaseStore_hist_self, List.length_append, List.length_singleton]
  · obtain rfl := Option.some.inj
      ((Memory.last_releaseStore m (.inr w) .current (.ptr p)).symm.trans hmsg)
    rw [hblock]
    exact (hcov (.block p) trivial).stores.trans (Nat.succ_le_succ (le_sup_left (α := Nat)))
  · rw [Memory.Latest, hblock]
    exact (h.held i q hq).trans
      (Nat.succ_le_succ (Memory.view_le_releaseStore m (.inr w) (.inl i) .current (.ptr p) _))

omit [DecidableEq W] in
theorem Told.frame (h : Told m floor i rpc) (hview : m.view (.inl i) ≤ m'.view (.inl i))
    (hseq : m'.hist (.seq i) = m.hist (.seq i)) (hfloor : floor' (.seq i) = floor (.seq i))
    (hholds : ∀ p, rpc.holds = some p → rpc'.holds = some p)
    (hloads : ∀ p, rpc'.holds ≠ some p →
      m'.loads (.block p) (.inl i) = m.loads (.block p) (.inl i)) : Told m' floor' i rpc' := by
  refine ⟨?_, ?_, fun p hp msg hmsg => ?_⟩
  · rw [Memory.Latest, hseq]
    exact h.latest.trans (Nat.succ_le_succ (hview _))
  · rw [hseq, hfloor]
    exact h.tail
  · rw [Memory.Last, hseq] at hmsg
    rw [hloads p hp]
    exact h.told p (fun hp' => hp (hholds p hp')) msg hmsg

/-- What a reader stores in its number tells of all its loads. -/
theorem loads_le_of_last_releaseStore (hown : m.KnowsOwn) {val : Val} {msg : Msg Loc (Thread W) Val}
    (hmsg : (m.releaseStore (.inl i) (.seq i) val).Last (.seq i) msg) (p : Nat) :
    m.loads (.block p) (.inl i) ≤ msg.view (.load (.block p) (.inl i)) := by
  obtain rfl := Option.some.inj ((Memory.last_releaseStore m (.inl i) (.seq i) val).symm.trans hmsg)
  exact (hown (.inl i) (.block p)).trans (le_sup_left (α := Nat))

theorem Told.beginStore (h : Told m floor i rpc) (hown : m.KnowsOwn) (val : Val) :
    Told (m.releaseStore (.inl i) (.seq i) val) (m.scFloor floor (.seq i)) i rpc' := by
  refine ⟨Memory.Latest.store h.latest (.seq i) val _, .inl ?_,
    fun p _ msg hmsg => loads_le_of_last_releaseStore hown hmsg p⟩
  rw [Memory.scFloor_self, Memory.releaseStore_hist_self, List.length_append, List.length_singleton]

theorem Told.endStore (h : Told m floor i rpc) (hown : m.KnowsOwn)
    (hin : inSection (m.value (.seq i)).toNum = true) {v : UInt64} (hv : inSection v = false) :
    Told (m.releaseStore (.inl i) (.seq i) (.num v)) floor i rpc' := by
  refine ⟨Memory.Latest.store h.latest (.seq i) _ _, .inr ?_,
    fun p _ msg hmsg => loads_le_of_last_releaseStore hown hmsg p⟩
  -- Before it the store of `read_begin` was the last one.
  have hlen : (m.hist (.seq i)).length = floor (.seq i) + 1 := by
    rcases h.tail with hlen | ⟨hlen, -, hlast⟩
    · exact hlen
    · obtain ⟨msg, hmsg⟩ : ∃ msg, m.Last (.seq i) msg :=
        ⟨_, List.getLast?_eq_some_getLast (List.ne_nil_of_length_eq_add_one hlen)⟩
      rw [hmsg.value_eq, hlast msg hmsg] at hin
      cases hin
  rw [Memory.releaseStore_hist_self]
  refine ⟨by rw [List.length_append, hlen, List.length_singleton], fun msg hmsg => ?_,
    fun msg hmsg => ?_⟩
  · rw [List.getElem?_append_left (by omega)] at hmsg
    rw [← (Memory.last_of_add_one_eq hlen.symm hmsg).value_eq]
    exact hin
  · rw [List.getLast?_concat] at hmsg
    obtain rfl := Option.some.inj hmsg
    exact hv

/-! ## Where the interleaved writer is -/

/-- A new number tells of all loads. -/
theorem Informs.storeSeq {old : Nat} {k : Fin maxReaders} {v : UInt64} (h : Informs m w old k v)
    (hown : m.KnowsOwn) (val : Val) :
    Informs (m.releaseStore (.inl i) (.seq i) val) w old k v := by
  intro j msg hj hmsg hne
  have hj' := (Memory.view_le_releaseStore m (.inl i) (.inr w) (.seq i) val _).trans hj
  by_cases hk : k = i
  · subst hk
    rw [Memory.releaseStore_hist_self, List.getElem?_append] at hmsg
    split at hmsg
    · exact h j msg hj' hmsg hne
    · obtain rfl := List.mem_singleton.mp (List.mem_of_getElem? hmsg)
      exact loads_le_of_last_releaseStore hown (Memory.last_releaseStore m (.inl k) (.seq k) val) old
  · rw [Memory.releaseStore_hist_of_ne m (.inl i) val fun he => hk (Loc.seq.inj he)] at hmsg
    exact h j msg hj' hmsg hne

/-- If the reader of the number leaves, each later number tells of all its loads. -/
theorem Current.informs {v : UInt64} (h : Current m w i v) (hown : m.KnowsOwn) (val : Val) (old : Nat) :
    Informs (m.releaseStore (.inl i) (.seq i) val) w old i v := by
  intro j msg hj hmsg hne
  have hj' := (Memory.view_le_releaseStore m (.inl i) (.inr w) (.seq i) val _).trans hj
  rw [Memory.releaseStore_hist_self, List.getElem?_append] at hmsg
  split at hmsg
  · rw [← (Memory.last_of_length_le h.latest hj' hmsg).value_eq] at hne
    exact absurd h.value hne
  · obtain rfl := List.mem_singleton.mp (List.mem_of_getElem? hmsg)
    exact loads_le_of_last_releaseStore hown (Memory.last_releaseStore m (.inl i) (.seq i) val) old

omit [DecidableEq W] in
theorem Follows.waits {v : UInt64} (rgn : Region) (old : Nat) (h : Current m w i v) :
    Follows m w (.spin rgn old i v) (.spin rgn old i v) :=
  .inl ⟨rfl, h⟩

omit [DecidableEq W] in
theorem Follows.ahead {v : UInt64} {old : Nat} (rgn : Region) (h : Informs m w old i v) :
    Follows m w (.spin rgn old i v) (.wait rgn old (i + 1)) :=
  .inr ⟨rfl, h⟩

omit [DecidableEq W] in
theorem Follows.eq (h : Follows m w pc pc') (hpc : ∀ rgn old i v, pc ≠ .spin rgn old i v) :
    pc' = pc := by
  cases pc with
  | spin rgn old i v => exact absurd rfl (hpc rgn old i v)
  | _ => exact h

omit [DecidableEq W] in
theorem Follows.locked_eq (h : Follows m w pc pc') : pc'.locked = pc.locked := by
  cases pc with
  | spin => rcases h with ⟨rfl, -⟩ | ⟨rfl, -⟩ <;> rfl
  | _ => exact congrArg WriterPc.locked h

omit [DecidableEq W] in
/-- Outside the lock a writer looks at nothing. -/
theorem Follows.of_not_locked (h : Follows m w pc pc') (hpc : pc.locked = false) :
    Follows m' w pc pc' := by
  cases pc with
  | spin => cases hpc
  | _ => exact h

omit [DecidableEq W] in
theorem Follows.of_spin {rgn : Region} {old : Nat} {v : UInt64}
    (h : Follows m w pc (.spin rgn old i v)) : pc = .spin rgn old i v ∧ Current m w i v := by
  cases pc with
  | spin =>
      rcases h with ⟨hpc, hcur⟩ | ⟨hpc, -⟩
      · obtain ⟨rfl, rfl, rfl, rfl⟩ := WriterPc.spin.inj hpc
        exact ⟨rfl, hcur⟩
      · cases hpc
  | _ => cases h

omit [DecidableEq W] in
/-- The interleaved writer has passed as many readers. -/
theorem Follows.passed (h : Follows m w pc pc') {p : Nat} (hp : pc.Passed p i) : pc'.Passed p i := by
  cases pc with
  | spin =>
      rcases h with ⟨rfl, -⟩ | ⟨rfl, -⟩
      · exact hp
      · exact ⟨hp.1, Nat.lt_succ_of_lt hp.2⟩
  | wait | free =>
      obtain rfl := h
      exact hp
  | _ => exact hp.elim

omit [DecidableEq W] in
/-- Nobody stores a number, and the readers that were passed do not load the table. -/
theorem Follows.frame (h : Follows m w pc pc') (hview : m.view (.inr w) ≤ m'.view (.inr w))
    (hseq : ∀ i, m'.hist (.seq i) = m.hist (.seq i))
    (hloads : ∀ (i : Fin maxReaders) p, pc'.Passed p i →
      m'.loads (.block p) (.inl i) = m.loads (.block p) (.inl i)) : Follows m' w pc pc' := by
  cases pc with
  | spin rgn old i v =>
      rcases h with ⟨rfl, hcur⟩ | ⟨rfl, hinf⟩
      · refine .inl ⟨rfl, hcur.inSection, ?_, ?_⟩
        · rw [Memory.value_congr (hseq i)]
          exact hcur.value
        · rw [Memory.Latest, hseq]
          exact hcur.latest.trans (Nat.succ_le_succ (hview _))
      · refine .inr ⟨rfl, fun j msg hj hmsg hne => ?_⟩
        rw [hseq] at hmsg
        rw [hloads i old ⟨rfl, Nat.lt_succ_self _⟩]
        exact hinf j msg ((hview _).trans hj) hmsg hne
  | _ => exact h

/-- A reader stores its number, and no interleaved writer waits for it. -/
theorem Follows.storeSeq (h : Follows m w pc pc') (hown : m.KnowsOwn)
    (hno : ∀ rgn old v, pc' ≠ .spin rgn old i v) (val : Val) :
    Follows (m.releaseStore (.inl i) (.seq i) val) w pc pc' := by
  have hview := Memory.view_le_releaseStore m (.inl i) (.inr w) (.seq i) val
  have hother : ∀ k, k ≠ i →
      (m.releaseStore (.inl i) (.seq i) val).hist (.seq k) = m.hist (.seq k) := fun k hk =>
    Memory.releaseStore_hist_of_ne m (.inl i) val fun he => hk (Loc.seq.inj he)
  cases pc with
  | spin rgn old k v =>
      rcases h with ⟨rfl, hcur⟩ | ⟨rfl, hinf⟩
      · have hk : k ≠ i := fun he => hno rgn old v (by rw [he])
        refine .inl ⟨rfl, hcur.inSection, ?_, ?_⟩
        · rw [Memory.value_congr (hother k hk)]
          exact hcur.value
        · rw [Memory.Latest, hother k hk]
          exact hcur.latest.trans (Nat.succ_le_succ (hview _))
      · exact .inr ⟨rfl, .storeSeq hinf hown val⟩
  | _ => exact h

end

/-! ## The last stores -/

section

variable {s s' : ViewState W} {wr : W → WriterPc}

theorem floor_ordered_of_ne (s : ViewState W) (mem : Memory Loc (Thread W) Val) {l k : Loc}
    (h : k ≠ l) : (s.ordered mem l).floor k = s.floor k :=
  Memory.scFloor_of_ne mem s.floor h

theorem seen_ordered (s : ViewState W) (mem : Memory Loc (Thread W) Val) (l : Loc)
    (wr : W → WriterPc) : (s.ordered mem l).seen wr = s.seen wr := rfl

theorem seen_storeSeq [DecidableEq W] (s : ViewState W) (wr : W → WriterPc) (i : Fin maxReaders)
    (v : UInt64) (pc : ReaderPc) :
    (s.gotoReader (s.mem.releaseStore (.inl i) (.seq i) (.num v)) i pc).seen wr =
      ((s.seen wr).setSeq i v).gotoReader i pc := by
  simp only [ViewState.seen, currentBlock, ViewState.gotoReader_mem, Memory.releaseStore_value]
  refine congrArg (fun seq => State.mk _ _ _ seq _ _) (funext fun j => ?_)
  simp only [State.setSeq_seq, Function.update_apply, Loc.seq.injEq]
  split <;> rfl

theorem seen_publish [DecidableEq W] (s : ViewState W) (wr : W → WriterPc) (w : W) (p : Nat)
    (pc pc' : WriterPc) :
    (s.gotoWriter (s.mem.releaseStore (.inr w) .current (.ptr p)) w pc).seen
        (Function.update wr w pc') = ((s.seen wr).setCurrent p).gotoWriter w pc' := by
  simp only [ViewState.seen, currentBlock, ViewState.gotoWriter_mem, Memory.releaseStore_value,
    Function.update_self]
  rfl

/-- A store to a block by a thread that has made plain loads. -/
theorem seen_storeBlock [DecidableEq W] (s : ViewState W) (wr : W → WriterPc)
    (mem : Memory Loc (Thread W) Val) (hmem : mem.hist = s.mem.hist) (w : W) (p : Nat) (c : Cell)
    (pc pc' : WriterPc) :
    (s.gotoWriter (mem.plainStore (.inr w) (.block p) (.cell c)) w pc).seen
        (Function.update wr w pc') = ((s.seen wr).setHeap p c).gotoWriter w pc' := by
  have hvalue : mem.value = s.mem.value := funext fun l => Memory.value_congr (congrFun hmem l)
  simp only [ViewState.seen, currentBlock, ViewState.gotoWriter_mem, Memory.plainStore_value, hvalue]
  refine congrArg (fun heap => State.mk _ heap _ _ _ _) (funext fun j => ?_)
  simp only [State.setHeap_heap, Function.update_apply, Loc.block.injEq]
  split <;> rfl

end

/-- Somebody may read the table in block `p`. -/
def ViewState.Readable (s : ViewState W) (p : Nat) : Prop :=
  p = currentBlock s.mem ∨ ∃ i, (s.reader i).holds = some p

/-! ## Facts of the interleaved machine -/

section

variable {u : State W} {mp : MemoryMap} {w : W} {i : Fin maxReaders} {p : Nat}

theorem WriterPc.Passed.retires {pc : WriterPc} (h : pc.Passed p i) :
    ∃ rgn, pc.retires = some (rgn, p) := by
  cases pc with
  | wait rgn | spin rgn => exact ⟨rgn, by rw [← h.1]; rfl⟩
  | free rgn => exact ⟨rgn, by rw [← show _ = p from h]; rfl⟩
  | _ => exact h.elim

theorem WriterPc.locked_of_retires {pc : WriterPc} {x : Region × Nat} (h : pc.retires = some x) :
    pc.locked = true := by
  cases pc with
  | wait | spin | free => rfl
  | _ => cases h

theorem WriterPc.Passed.not_awaits {pc : WriterPc} (h : pc.Passed p i) (v : UInt64) :
    ¬ pc.Awaits p i v := by
  intro ha
  cases pc with
  | wait => exact Nat.lt_irrefl _ (h.2.trans_le ha.2)
  | spin =>
      rcases ha.2 with hlt | ⟨rfl, -⟩
      · exact lt_asymm h.2 hlt
      · exact lt_irrefl _ h.2
  | _ => exact ha.elim

/-- A writer that goes on to the next reader has passed one more. -/
theorem WriterPc.Passed.of_succ {rgn : Region} {q : Nat} {k : Fin maxReaders}
    (h : (WriterPc.wait rgn q (k + 1)).Passed p i) :
    (WriterPc.wait rgn q k).Passed p i ∨ q = p ∧ k = i := by
  obtain ⟨rfl, hlt⟩ := h
  rcases Nat.lt_succ_iff_lt_or_eq.mp hlt with hlt | heq
  · exact .inl ⟨rfl, hlt⟩
  · exact .inr ⟨rfl, (Fin.ext heq).symm⟩

/-- A reader that was passed does not hold the table. -/
theorem State.Inv.not_held (hs : u.Inv mp) (hw : (u.writer w).Passed p i) :
    (u.reader i).holds ≠ some p := by
  intro hp
  obtain ⟨rgn, hret⟩ := hw.retires
  rcases hs.held i p hp with rfl | ⟨w', hw'⟩
  · exact (hs.owned.retired_live hret).1 rfl
  · obtain rfl := hs.owned.unique (WriterPc.locked_of_retires hret) hw'.locked
    exact hw.not_awaits _ hw'

/-- While the mutex is held by a writer that waits for nobody, readers hold the current table. -/
theorem State.Inv.holds_current (hs : u.Inv mp) (hl : (u.writer w).locked)
    (hno : ∀ v, ¬ (u.writer w).Awaits p i v) (hp : (u.reader i).holds = some p) : p = u.current := by
  rcases hs.held i p hp with h | ⟨w', hw'⟩
  · exact h
  · obtain rfl := hs.owned.unique hl hw'.locked
    exact absurd hw' (hno _)

end

/-! ## Steps of writers -/

/-- The accesses of a writer: the readers' numbers and plain loads are as before. -/
structure ByWriter (m m' : Memory Loc (Thread W) Val) : Prop where
  view : ∀ t, m.view t ≤ m'.view t
  seq : ∀ i, m'.hist (.seq i) = m.hist (.seq i)
  loads : ∀ l i, m'.loads l (.inl i) = m.loads l (.inl i)

namespace ByWriter

variable {m m' m'' : Memory Loc (Thread W) Val}

theorem refl (m : Memory Loc (Thread W) Val) : ByWriter m m :=
  ⟨fun _ => le_rfl, fun _ => rfl, fun _ _ => rfl⟩

theorem trans (h : ByWriter m m') (h' : ByWriter m' m'') : ByWriter m m'' :=
  ⟨fun t => (h.view t).trans (h'.view t), fun i => (h'.seq i).trans (h.seq i),
    fun l i => (h'.loads l i).trans (h.loads l i)⟩

variable [DecidableEq W]

theorem learn (m : Memory Loc (Thread W) Val) (t : Thread W) (v : View Loc (Thread W)) :
    ByWriter m (m.learn t v) :=
  ⟨fun u => Memory.view_le_learn m t u v, fun _ => rfl, fun _ _ => rfl⟩

theorem plainLoad (m : Memory Loc (Thread W) Val) (w : W) (l : Loc) (j : Nat) :
    ByWriter m (m.plainLoad (.inr w) l j) :=
  ⟨fun u => Memory.view_le_plainLoad m (.inr w) u l j, fun _ => rfl,
    fun _ _ => Memory.plainLoad_loads_of_ne m j (.inl Sum.inl_ne_inr)⟩

theorem plainStore (m : Memory Loc (Thread W) Val) (w : W) (p : Nat) (val : Val) :
    ByWriter m (m.plainStore (.inr w) (.block p) val) :=
  ⟨fun u => Memory.view_le_plainStore m (.inr w) u (.block p) val,
    fun _ => Memory.plainStore_hist_of_ne m (.inr w) val nofun, fun _ _ => rfl⟩

theorem publish (m : Memory Loc (Thread W) Val) (w : W) (val : Val) :
    ByWriter m (m.releaseStore (.inr w) .current val) :=
  ⟨fun u => Memory.view_le_releaseStore m (.inr w) u .current val,
    fun _ => Memory.releaseStore_hist_of_ne m (.inr w) val nofun, fun _ _ => rfl⟩

end ByWriter

theorem ViewStep.byWriter [DecidableEq W] {s s' : ViewState W} {a : Act W} (h : ViewStep s a s')
    (ha : a.reader? = none) :
    ByWriter s.mem s'.mem ∧ s'.reader = s.reader ∧ ∀ i, s'.floor (.seq i) = s.floor (.seq i) := by
  cases h with
  | addCall | checkFail | checkOk | nomem | waitEnd | unlock =>
      exact ⟨.refl _, rfl, fun _ => rfl⟩
  | lock | load | waitOut | waitIn | spinAgain | spinEnd => exact ⟨.learn _ _ _, rfl, fun _ => rfl⟩
  | scanFail | scanOk => exact ⟨.plainLoad _ _ _ _, rfl, fun _ => rfl⟩
  | malloc => exact ⟨(ByWriter.plainLoad _ _ _ _).trans (.plainStore _ _ _ _), rfl, fun _ => rfl⟩
  | fill =>
      exact ⟨((ByWriter.plainLoad _ _ _ _).trans (.plainLoad _ _ _ _)).trans (.plainStore _ _ _ _),
        rfl, fun _ => rfl⟩
  | publish => exact ⟨.publish _ _ _, rfl, fun _ => floor_ordered_of_ne _ s.mem nofun⟩
  | free => exact ⟨.plainStore _ _ _ _, rfl, fun _ => rfl⟩
  | _ => cases ha

/-- A writer moves only by its own steps. -/
theorem ViewStep.writer_eq [DecidableEq W] {s s' : ViewState W} {a : Act W} {w : W}
    (h : ViewStep s a s') (hw : a.writer? ≠ some w) : s'.writer w = s.writer w := by
  have hne : ∀ {w' : W}, some w' ≠ some w → w ≠ w' := fun h he => h (he ▸ rfl)
  cases h with
  | addCall | checkFail | checkOk | lock | load | scanFail | scanOk | nomem | malloc | fill
  | publish | waitOut | waitIn | spinAgain | spinEnd | waitEnd | free | unlock =>
      exact Function.update_of_ne (hne hw) _ _
  | _ => rfl

/-! ## Steps -/

theorem reachable_exec {σ α : Type} {S : System σ α} {s s' : σ} {as : List α} (hs : S.Reachable s)
    (h : S.Exec s as s') : S.Reachable s' := by
  induction h with
  | nil => exact hs
  | cons hstep _ ih => exact ih (hs.step hstep)

/-- The steps that both machines make. -/
def Act.visible : Act W → Bool
  | .writerStep _ => false
  | _ => true

section

variable [DecidableEq W] {s s' : ViewState W} {wr : W → WriterPc} {a : Act W} {w w' : W}
  {i : Fin maxReaders} {p : Nat} {pc pc' : WriterPc} {m' : Memory Loc (Thread W) Val}

omit [DecidableEq W] in
theorem Stage.after_ne_spin (rgn : Region) (old new pos : Nat) (stage : Stage) (rgn' : Region)
    (old' : Nat) (i : Fin maxReaders) (v : UInt64) :
    stage.after rgn old new pos ≠ .spin rgn' old' i v := by
  cases stage <;> nofun

omit [DecidableEq W] in
theorem Stage.after_not_passed (rgn : Region) (old new pos : Nat) (stage : Stage) :
    ¬ (stage.after rgn old new pos).Passed p i := by
  cases stage <;> exact id

omit [DecidableEq W] in
theorem Stage.after_builds (rgn : Region) (old new pos : Nat) (stage : Stage) :
    (stage.after rgn old new pos).builds = some new := by
  cases stage <;> rfl

/-- The interleaved machine goes along: it makes the same visible step, if it is one. -/
def Simulates (s : ViewState W) (wr : W → WriterPc) (a : Act W) (s' : ViewState W) : Prop :=
  ∃ bs wr', (machine W).Exec (s.seen wr) bs (s'.seen wr') ∧
    bs.filter Act.visible = [a].filter Act.visible ∧ ∀ w, Follows s'.mem w (s'.writer w) (wr' w)

theorem Simulates.of_step (wr' : W → WriterPc) (h : Step (s.seen wr) a (s'.seen wr'))
    (hf : ∀ w, Follows s'.mem w (s'.writer w) (wr' w)) : Simulates s wr a s' :=
  ⟨[a], wr', .cons h .nil, rfl, hf⟩

theorem follows_update (hself : Follows m' w pc pc') {writer : W → WriterPc}
    (hother : ∀ w', w' ≠ w → Follows m' w' (writer w') (wr w')) (w' : W) :
    Follows m' w' (Function.update writer w pc w') (Function.update wr w pc' w') := by
  by_cases hw : w' = w
  · subst hw
    rw [Function.update_self, Function.update_self]
    exact hself
  · rw [Function.update_of_ne hw, Function.update_of_ne hw]
    exact hother w' hw

namespace ViewState.Inv

theorem interleaved (h : s.Inv wr) : ∃ mp, (s.seen wr).Inv mp := inv_invariant.reachable h.reachable

theorem writer_eq (h : s.Inv wr) (hpc : s.writer w = pc)
    (hno : ∀ rgn old i v, pc ≠ .spin rgn old i v) : wr w = pc := by
  have hf := h.follows w
  rw [hpc] at hf
  exact hf.eq hno

/-- What a writer at this place knows of the tables. -/
theorem tables_ok (h : s.Inv wr) (hpc : s.writer w = pc)
    (hno : ∀ rgn old i v, pc ≠ .spin rgn old i v) :
    pc.Ok (currentBlock s.mem) fun p => (s.mem.value (.block p)).toCell := by
  obtain ⟨mp, hu⟩ := h.interleaved
  have hok := hu.owned.ok w
  rw [show (s.seen wr).writer w = pc from h.writer_eq hpc hno] at hok
  exact hok

theorem wr_locked (h : s.Inv wr) (w : W) : (wr w).locked = (s.writer w).locked :=
  (h.follows w).locked_eq

theorem lock_eq (h : s.Inv wr) (hl : (s.writer w).locked) : s.lock = some w := by
  obtain ⟨mp, hu⟩ := h.interleaved
  exact hu.owned.exclusive w ((h.wr_locked w).trans hl)

/-- Nobody is between `lock` and `unlock` while the mutex is free. -/
theorem not_locked (h : s.Inv wr) (hl : s.lock = none) (w : W) : (s.writer w).locked = false := by
  cases hw : (s.writer w).locked with
  | false => rfl
  | true =>
      have hfree := h.lock_eq hw
      rw [hl] at hfree
      cases hfree

theorem alone (h : s.Inv wr) (hl : (s.writer w).locked) (hne : w' ≠ w) :
    (s.writer w').locked = false := by
  obtain ⟨mp, hu⟩ := h.interleaved
  rw [← h.wr_locked]
  exact hu.owned.alone (w := w) ((h.wr_locked w).trans hl) hne

theorem fits (h : s.Inv wr) {rpc : ReaderPc} (hpc : s.reader i = rpc) :
    rpc.Fits (s.mem.value (.seq i)).toNum := by
  obtain ⟨mp, hu⟩ := h.interleaved
  exact hpc ▸ hu.sections i

/-- A reader that was passed does not hold the table. -/
theorem not_held (h : s.Inv wr) (hp : (wr w).Passed p i) : (s.reader i).holds ≠ some p := by
  obtain ⟨mp, hu⟩ := h.interleaved
  exact hu.not_held hp

/-- The other writers, while one is inside. -/
theorem follows_others (h : s.Inv wr) (hl : (s.writer w).locked) (m' : Memory Loc (Thread W) Val)
    (hne : w' ≠ w) : Follows m' w' (s.writer w') (wr w') :=
  (h.follows w').of_not_locked (h.alone hl hne)

/-- A reader's load that it makes of its own number or of the pointer. -/
theorem follows_learn (h : s.Inv wr) (i : Fin maxReaders) (v : View Loc (Thread W)) (w : W) :
    Follows (s.mem.learn (.inl i) v) w (s.writer w) (wr w) :=
  (h.follows w).frame (Memory.view_le_learn s.mem (.inl i) (.inr w) v) (fun _ => rfl)
    fun _ _ _ => rfl

/-- A reader's load of the table that it holds. -/
theorem follows_plainLoad (h : s.Inv wr) (hp : (s.reader i).holds = some p) (j : Nat) (w : W) :
    Follows (s.mem.plainLoad (.inl i) (.block p) j) w (s.writer w) (wr w) := by
  refine (h.follows w).frame (Memory.view_le_plainLoad s.mem (.inl i) (.inr w) (.block p) j)
    (fun _ => rfl) fun k q hq => ?_
  refine Memory.plainLoad_loads_of_ne s.mem j ?_
  by_cases hk : k = i
  · subst hk
    refine .inr fun he => h.not_held hq ?_
    rw [hp, Loc.block.inj he]
  · exact .inl fun he => hk (Sum.inl.inj he)

/-- A load of its own number finds the last one. -/
theorem seq_eq (h : s.Inv wr) {j : Nat} {msg : Msg Loc (Thread W) Val}
    (hf : s.mem.Finds (.inl i) (.seq i) j msg) : s.mem.value (.seq i) = msg.val :=
  (hf.last (h.told i).latest).value_eq

/-- A reader's load of the pointer finds the last one. -/
theorem current_eq (h : s.Inv wr) {j : Nat} {msg : Msg Loc (Thread W) Val}
    (hf : s.mem.ScFinds s.floor (.inl i) .current j msg) : currentBlock s.mem = msg.val.toPtr := by
  rw [currentBlock, (hf.last h.published.newest).value_eq]

/-- A reader's load of the table that it holds finds the last store. -/
theorem held_reads (h : s.Inv wr) (hp : (s.reader i).holds = some p) {j : Nat}
    {msg : Msg Loc (Thread W) Val} (hf : s.mem.Finds (.inl i) (.block p) j msg) {t : RegionTable}
    (ht : msg.val.Shows t) : (s.seen wr).Reads p t := by
  rw [Val.Shows, ← (hf.last (h.published.held i p hp)).value_eq] at ht
  exact ht

/-- So does a load under the mutex. -/
theorem locked_reads (h : s.Inv wr) (hl : (s.writer w).locked) {j : Nat}
    {msg : Msg Loc (Thread W) Val} (hf : s.mem.Finds (.inr w) (.block p) j msg) {t : RegionTable}
    (ht : msg.val.Shows t) : (s.seen wr).Reads p t := by
  rw [Val.Shows, ← (hf.last (h.mutexed.owner w hl (.block p) trivial).stores).value_eq] at ht
  exact ht

/-- The number of a reader outside of a section, or the one that it is in. -/
theorem scFinds_seq (h : s.Inv wr) {j : Nat} {msg : Msg Loc (Thread W) Val}
    (hf : s.mem.ScFinds s.floor (.inr w) (.seq i) j msg) :
    j + 1 = (s.mem.hist (.seq i)).length ∨
      inSection msg.val.toNum = true ∧ inSection (s.mem.value (.seq i)).toNum = false ∧
        ∀ k msg', j < k → (s.mem.hist (.seq i))[k]? = some msg' → s.mem.Last (.seq i) msg' := by
  rcases (h.told i).tail with hlen | ⟨hlen, hodd, hlast⟩
  · exact .inl (hf.add_one_eq hlen.le)
  have hlt := (List.getElem?_eq_some_iff.mp hf.finds.2).1
  have hle := hf.floor_le
  rcases Nat.lt_or_eq_of_le hle with hlt' | rfl
  · exact .inl (by omega)
  · refine .inr ⟨hodd msg hf.finds.2, ?_, fun k msg' hk hmsg' => ?_⟩
    · obtain ⟨msg', hmsg'⟩ : ∃ msg', s.mem.Last (.seq i) msg' :=
        ⟨_, List.getLast?_eq_some_getLast (List.ne_nil_of_length_eq_add_one hlen)⟩
      rw [hmsg'.value_eq]
      exact hlast msg' hmsg'
    · have hk' := (List.getElem?_eq_some_iff.mp hmsg').1
      exact Memory.last_of_add_one_eq (by omega) hmsg'

/-- A step of a writer that does not come to wait for a reader. -/
theorem simulates_writer (hw : s'.writer = Function.update s.writer w pc)
    (hno : ∀ rgn old i v, pc ≠ .spin rgn old i v)
    (hothers : ∀ w', w' ≠ w → Follows s'.mem w' (s.writer w') (wr w'))
    (hstep : Step (s.seen wr) a (s'.seen (Function.update wr w pc))) : Simulates s wr a s' := by
  refine .of_step _ hstep ?_
  rw [hw]
  refine follows_update ?_ hothers
  cases pc with
  | spin rgn old i v => exact absurd rfl (hno rgn old i v)
  | _ => rfl

/-- Inside the mutex it is alone. -/
theorem simulates_owner (h : s.Inv wr) (hl : (s.writer w).locked)
    (hw : s'.writer = Function.update s.writer w pc) (hno : ∀ rgn old i v, pc ≠ .spin rgn old i v)
    (hstep : Step (s.seen wr) a (s'.seen (Function.update wr w pc))) : Simulates s wr a s' :=
  simulates_writer hw hno (fun _ hne => h.follows_others hl s'.mem hne) hstep

/-- `read_begin` stores the number: no writer waits for the reader. -/
theorem simulates_beginStore (h : s.Inv wr) {gpa hva v : UInt64}
    (hpc : s.reader i = .beginStore gpa hva v) :
    Simulates s wr (.readerStep i)
      ((s.gotoReader (s.mem.releaseStore (.inl i) (.seq i) (.num (v + 1))) i
        (.loadCurrent gpa hva)).ordered s.mem (.seq i)) := by
  refine .of_step wr ?_ fun w => (h.follows w).storeSeq h.own (fun rgn old x hx => ?_) _
  · rw [seen_ordered, seen_storeSeq]
    exact .beginStore hpc
  · have hf := h.follows w
    rw [hx] at hf
    have hcur := hf.of_spin.2
    have hout := (h.fits hpc).2
    rw [hcur.value, hcur.inSection] at hout
    cases hout

/-- `read_end` stores the number: a writer that waits for the reader passes it. -/
theorem simulates_endStore (h : s.Inv wr) {gpa hva v : UInt64} {ans : Bool × UInt64}
    (hpc : s.reader i = .endStore p gpa hva ans v) :
    Simulates s wr (.translateRet i gpa hva ans)
      (s.gotoReader (s.mem.releaseStore (.inl i) (.seq i) (.num (v + 1))) i .idle) := by
  have hstep : Step (s.seen wr) (.translateRet i gpa hva ans)
      ((s.gotoReader (s.mem.releaseStore (.inl i) (.seq i) (.num (v + 1))) i .idle).seen wr) := by
    rw [seen_storeSeq]
    exact .endStore hpc
  have hfits := h.fits hpc
  by_cases hwait : ∃ w rgn old x, wr w = .spin rgn old i x
  · obtain ⟨w, rgn, old, x, hw⟩ := hwait
    have hf := h.follows w
    rw [hw] at hf
    obtain ⟨hspin, hcur⟩ := hf.of_spin
    obtain rfl : x = v := hcur.value.symm.trans hfits.1.symm
    refine ⟨[.translateRet i gpa hva ans, .writerStep w],
      Function.update wr w (.wait rgn old (i + 1)),
      .cons hstep (.cons (.spinEnd hw ?_) .nil), rfl, ?_⟩
    · show ((s.mem.releaseStore (.inl i) (.seq i) (.num (x + 1))).value (.seq i)).toNum ≠ x
      rw [Memory.releaseStore_value, Function.update_self]
      intro he
      have hin : inSection (x + 1) = inSection x := congrArg inSection he
      rw [inSection_succ] at hin
      exact Bool.not_ne_self _ hin
    · intro w'
      by_cases hne : w' = w
      · subst hne
        rw [Function.update_self]
        show Follows _ w' (s.writer w') _
        rw [hspin]
        exact .ahead rgn (hcur.informs h.own _ old)
      · rw [Function.update_of_ne hne]
        exact h.follows_others (by rw [hspin]; rfl) _ hne
  · exact .of_step wr hstep fun w => (h.follows w).storeSeq h.own
      (fun rgn old x hx => hwait ⟨w, rgn, old, x, hx⟩) _

/-- The writer finds that the reader is outside. -/
theorem waitOut_last (h : s.Inv wr) {j : Nat} {msg : Msg Loc (Thread W) Val}
    (hf : s.mem.ScFinds s.floor (.inr w) (.seq i) j msg) (hout : inSection msg.val.toNum = false) :
    s.mem.Last (.seq i) msg := by
  rcases h.scFinds_seq hf with hlast | ⟨hin, -⟩
  · exact Memory.last_of_add_one_eq hlast hf.finds.2
  · rw [hin] at hout
    cases hout

/-- A reader whose number is even holds nothing. -/
theorem holds_none (h : s.Inv wr) (hout : inSection (s.mem.value (.seq i)).toNum = false) (p : Nat) :
    (s.reader i).holds ≠ some p := by
  intro hp
  rw [(h.fits rfl).inSection_of_holds hp] at hout
  cases hout

/-- The writer finds a reader inside.  It may have left, and then the interleaved writer passes it. -/
theorem simulates_waitIn (h : s.Inv wr) {rgn : Region} {old j : Nat} {msg : Msg Loc (Thread W) Val}
    (hpc : s.writer w = .wait rgn old i) (hf : s.mem.ScFinds s.floor (.inr w) (.seq i) j msg)
    (hin : inSection msg.val.toNum = true) :
    Simulates s wr (.writerStep w)
      (s.gotoWriter (s.mem.acquireLoad (.inr w) (.seq i) j msg) w (.spin rgn old i msg.val.toNum)) := by
  have hwr := h.writer_eq hpc nofun
  have hl : (s.writer w).locked := by rw [hpc]; rfl
  have hview : j ≤ (s.mem.acquireLoad (.inr w) (.seq i) j msg).view (.inr w) (.store (.seq i)) :=
    View.upTo_le_iff.mp (le_sup_left.trans (by
      rw [Memory.acquireLoad, Memory.learn_view_self]
      exact le_sup_right))
  rcases h.scFinds_seq hf with hlast | ⟨-, hout, hlater⟩
  · have hval := congrArg Val.toNum (Memory.last_of_add_one_eq hlast hf.finds.2).value_eq
    refine .of_step (Function.update wr w (.spin rgn old i msg.val.toNum)) ?_
      (follows_update ?_ fun w' hne => h.follows_others hl _ hne)
    · have hstep : Step (s.seen wr) (.writerStep w)
          ((s.seen wr).gotoWriter w (.spin rgn old i ((s.seen wr).seq i))) :=
        .waitIn hwr ((congrArg inSection hval).trans hin)
      rw [show (s.seen wr).seq i = msg.val.toNum from hval] at hstep
      exact hstep
    · exact .waits rgn old ⟨hin, hval, hlast.symm.le.trans (Nat.succ_le_succ hview)⟩
  · refine .of_step (Function.update wr w (.wait rgn old (i + 1)))
      (.waitOut (s := s.seen wr) hwr hout)
      (follows_update (.ahead rgn fun k msg' hk hmsg' hne => ?_) fun w' hne =>
        h.follows_others hl _ hne)
    -- A later number was stored by the reader when it left.
    have hlt : j < k := by
      refine Nat.lt_of_le_of_ne (hview.trans hk) ?_
      rintro rfl
      exact hne (by rw [Option.some.inj (hmsg'.symm.trans hf.finds.2)])
    exact (h.told i).told old (h.holds_none hout old) msg' (hlater k msg' hlt hmsg')

theorem simulates_waitOut (h : s.Inv wr) {rgn : Region} {old j : Nat} {msg : Msg Loc (Thread W) Val}
    (hpc : s.writer w = .wait rgn old i) (hf : s.mem.ScFinds s.floor (.inr w) (.seq i) j msg)
    (hout : inSection msg.val.toNum = false) :
    Simulates s wr (.writerStep w)
      (s.gotoWriter (s.mem.acquireLoad (.inr w) (.seq i) j msg) w (.wait rgn old (i + 1))) := by
  refine h.simulates_owner (by rw [hpc]; rfl) rfl nofun
    (.waitOut (s := s.seen wr) (h.writer_eq hpc nofun) ?_)
  show inSection (s.mem.value (.seq i)).toNum = false
  rw [(h.waitOut_last hf hout).value_eq]
  exact hout

/-- The writer goes on waiting: the interleaved one does nothing. -/
theorem simulates_spinAgain (h : s.Inv wr) {rgn : Region} {old j : Nat} {v : UInt64}
    {msg : Msg Loc (Thread W) Val} (hpc : s.writer w = .spin rgn old i v) :
    Simulates s wr (.writerStep w)
      (s.gotoWriter (s.mem.acquireLoad (.inr w) (.seq i) j msg) w (.spin rgn old i v)) := by
  refine ⟨[], wr, .nil, rfl, fun w' => ?_⟩
  rw [ViewState.gotoWriter_writer, ← hpc, Function.update_eq_self]
  exact (h.follows w').frame (Memory.view_le_learn s.mem (.inr w) (.inr w') _) (fun _ => rfl)
    fun _ _ _ => rfl

/-- A writer that stops to wait for a reader: the interleaved one has passed it before. -/
theorem passed_of_spin (h : s.Inv wr) {rgn : Region} {old j : Nat} {v : UInt64}
    {msg : Msg Loc (Thread W) Val} (hpc : s.writer w = .spin rgn old i v)
    (hf : s.mem.Finds (.inr w) (.seq i) j msg) (hne : msg.val.toNum ≠ v) :
    wr w = .wait rgn old (i + 1) ∧ Informs s.mem w old i v := by
  have hw := h.follows w
  rw [hpc] at hw
  rcases hw with ⟨-, hcur⟩ | hpassed
  · rw [← (hf.last hcur.latest).value_eq] at hne
    exact absurd hcur.value hne
  · exact hpassed

theorem simulates_spinEnd (h : s.Inv wr) {rgn : Region} {old j : Nat} {v : UInt64}
    {msg : Msg Loc (Thread W) Val} (hpc : s.writer w = .spin rgn old i v)
    (hf : s.mem.Finds (.inr w) (.seq i) j msg) (hne : msg.val.toNum ≠ v) :
    Simulates s wr (.writerStep w)
      (s.gotoWriter (s.mem.acquireLoad (.inr w) (.seq i) j msg) w (.wait rgn old (i + 1))) := by
  refine ⟨[], wr, .nil, rfl, fun w' => ?_⟩
  by_cases hw : w' = w
  · subst hw
    rw [ViewState.gotoWriter_writer, Function.update_self]
    exact (h.passed_of_spin hpc hf hne).1
  · rw [ViewState.gotoWriter_writer, Function.update_of_ne hw]
    exact h.follows_others (by rw [hpc]; rfl) _ hw

theorem simulates_step (h : s.Inv wr) (hstep : ViewStep s a s') : Simulates s wr a s' := by
  cases hstep with
  | translateCall hpc => exact .of_step wr (.translateCall (s := s.seen wr) hpc) h.follows
  | beginLoad hpc hf =>
      refine .of_step wr ?_ (h.follows_learn _ _)
      rw [← h.seq_eq hf]
      exact .beginLoad (s := s.seen wr) hpc
  | beginStore hpc => exact h.simulates_beginStore hpc
  | loadCurrent hpc hf =>
      refine .of_step wr ?_ (h.follows_learn _ _)
      rw [← h.current_eq hf]
      exact .loadCurrent (s := s.seen wr) hpc
  | readN hpc hf ht =>
      have hp := congrArg ReaderPc.holds hpc
      exact .of_step wr (.readN (s := s.seen wr) hpc (h.held_reads hp hf ht))
        (h.follows_plainLoad hp _)
  | searchRight hpc hlt hf ht hcmp =>
      have hp := congrArg ReaderPc.holds hpc
      exact .of_step wr (.searchRight (s := s.seen wr) hpc hlt (h.held_reads hp hf ht) hcmp)
        (h.follows_plainLoad hp _)
  | searchLeft hpc hlt hf ht hcmp =>
      have hp := congrArg ReaderPc.holds hpc
      exact .of_step wr (.searchLeft (s := s.seen wr) hpc hlt (h.held_reads hp hf ht) hcmp)
        (h.follows_plainLoad hp _)
  | searchEnd hpc hlt hf ht =>
      have hp := congrArg ReaderPc.holds hpc
      exact .of_step wr (.searchEnd (s := s.seen wr) hpc hlt (h.held_reads hp hf ht))
        (h.follows_plainLoad hp _)
  | endLoad hpc hf =>
      refine .of_step wr ?_ (h.follows_learn _ _)
      rw [← h.seq_eq hf]
      exact .endLoad (s := s.seen wr) hpc
  | endStore hpc => exact h.simulates_endStore hpc
  | addCall hpc =>
      exact simulates_writer rfl nofun (fun w' _ => h.follows w')
        (.addCall (s := s.seen wr) (h.writer_eq hpc nofun))
  | checkFail hpc hc =>
      exact simulates_writer rfl nofun (fun w' _ => h.follows w')
        (.checkFail (s := s.seen wr) (h.writer_eq hpc nofun) hc)
  | checkOk hpc hc =>
      exact simulates_writer rfl nofun (fun w' _ => h.follows w')
        (.checkOk (s := s.seen wr) (h.writer_eq hpc nofun) hc)
  | lock hpc hl =>
      exact simulates_writer rfl nofun (fun w' _ => (h.follows w').of_not_locked (h.not_locked hl w'))
        (.lock (s := s.seen wr) (h.writer_eq hpc nofun) hl)
  | load hpc hf =>
      have hlocked := congrArg WriterPc.locked hpc
      refine h.simulates_owner hlocked rfl nofun ?_
      have hcur := (hf.last (h.mutexed.owner _ hlocked .current trivial).stores).value_eq
      rw [← hcur]
      exact .load (s := s.seen wr) (h.writer_eq hpc nofun)
  | scanFail hpc hf ht hpos =>
      have hlocked := congrArg WriterPc.locked hpc
      exact h.simulates_owner hlocked rfl nofun
        (.scanFail (s := s.seen wr) (h.writer_eq hpc nofun) (h.locked_reads hlocked hf ht) hpos)
  | scanOk hpc hf ht hpos =>
      have hlocked := congrArg WriterPc.locked hpc
      exact h.simulates_owner hlocked rfl nofun
        (.scanOk (s := s.seen wr) (h.writer_eq hpc nofun) (h.locked_reads hlocked hf ht) hpos)
  | nomem hpc =>
      exact h.simulates_owner (by rw [hpc]; rfl) rfl nofun
        (.nomem (s := s.seen wr) (h.writer_eq hpc nofun))
  | malloc hpc hf ht hnew hlen =>
      have hlocked := congrArg WriterPc.locked hpc
      refine h.simulates_owner hlocked rfl nofun ?_
      rw [seen_storeBlock s wr (s.mem.plainLoad _ _ _) rfl]
      exact .malloc (h.writer_eq hpc nofun) (h.locked_reads hlocked hf ht)
        (congrArg Val.toCell hnew) hlen
  | fill hpc hf ht hf' ht' =>
      have hlocked := congrArg WriterPc.locked hpc
      refine h.simulates_owner hlocked rfl (Stage.after_ne_spin _ _ _ _ _) ?_
      rw [seen_storeBlock s wr ((s.mem.plainLoad _ _ _).plainLoad _ _ _) rfl]
      exact .fill (h.writer_eq hpc nofun) (h.locked_reads hlocked hf ht)
        (h.locked_reads hlocked hf' ht')
  | publish hpc =>
      refine h.simulates_owner (by rw [hpc]; rfl) rfl nofun ?_
      rw [seen_ordered, seen_publish]
      exact .publish (h.writer_eq hpc nofun)
  | waitOut hpc hf hout => exact h.simulates_waitOut hpc hf hout
  | waitIn hpc hf hin => exact h.simulates_waitIn hpc hf hin
  | spinAgain hpc hf hv => exact h.simulates_spinAgain hpc
  | spinEnd hpc hf hne => exact h.simulates_spinEnd hpc hf hne
  | waitEnd hpc =>
      exact h.simulates_owner (by rw [hpc]; rfl) rfl nofun
        (.waitEnd (s := s.seen wr) (h.writer_eq hpc nofun))
  | free hpc =>
      refine h.simulates_owner (by rw [hpc]; rfl) rfl nofun ?_
      rw [seen_storeBlock s wr s.mem rfl]
      exact .free (h.writer_eq hpc nofun)
  | unlock hpc =>
      exact h.simulates_owner (by rw [hpc]; rfl) rfl nofun
        (.unlock (s := s.seen wr) (h.writer_eq hpc nofun))

/-! ## The views after a step -/

theorem own_step (h : s.Inv wr) (hstep : ViewStep s a s') : s'.mem.KnowsOwn := by
  cases hstep with
  | translateCall | addCall | checkFail | checkOk | nomem | waitEnd | unlock => exact h.own
  | beginLoad | loadCurrent | endLoad | lock | load | waitOut | waitIn | spinAgain | spinEnd =>
      exact h.own.learn _ _
  | readN | searchRight | searchLeft | searchEnd | scanFail | scanOk => exact h.own.plainLoad _ _ _
  | beginStore | endStore | publish | free => exact h.own.store _ _ _ _
  | malloc => exact (h.own.plainLoad _ _ _).store _ _ _ _
  | fill => exact ((h.own.plainLoad _ _ _).plainLoad _ _ _).store _ _ _ _

/-- A reader loads plainly. -/
theorem mutexed_plainLoad (h : s.Inv wr) (i : Fin maxReaders) (l : Loc) (j : Nat) :
    Mutexed (s.mem.plainLoad (.inl i) l j) s.lock s.handed s.writer :=
  h.mutexed.frame (fun w => Memory.view_le_plainLoad s.mem (.inl i) (.inr w) l j) (fun _ _ => rfl)
    fun _ _ => Memory.plainLoad_loads_of_ne s.mem j (.inl Sum.inr_ne_inl)

/-- A reader stores its number. -/
theorem mutexed_storeSeq (h : s.Inv wr) (i : Fin maxReaders) (val : Val) :
    Mutexed (s.mem.releaseStore (.inl i) (.seq i) val) s.lock s.handed s.writer := by
  refine h.mutexed.frame (fun w => Memory.view_le_releaseStore s.mem (.inl i) (.inr w) (.seq i) val)
    (fun l hl => Memory.releaseStore_hist_of_ne s.mem (.inl i) val ?_) fun _ _ => rfl
  rintro rfl
  exact hl

theorem mutexed_owner (h : s.Inv wr) (hl : (s.writer w).locked)
    (hcov : Covered m' (m'.view (.inr w))) :
    Mutexed m' s.lock s.handed (Function.update s.writer w pc) := by
  rw [h.lock_eq hl]
  exact .of_owner hcov fun w' hne => h.alone hl hne

theorem mutexed_step (h : s.Inv wr) (hstep : ViewStep s a s') :
    Mutexed s'.mem s'.lock s'.handed s'.writer := by
  have hcov : ∀ {w pc}, s.writer w = pc → pc.locked = true → Covered s.mem (s.mem.view (.inr w)) :=
    fun hpc hl => h.mutexed.owner _ (hpc ▸ hl)
  have hin : ∀ {w pc}, s.writer w = pc → pc.locked = true → (s.writer w).locked = true :=
    fun hpc hl => hpc ▸ hl
  cases hstep with
  | translateCall => exact h.mutexed
  | beginLoad | loadCurrent | endLoad =>
      exact h.mutexed.frame (fun w => Memory.view_le_learn s.mem _ (.inr w) _) (fun _ _ => rfl)
        fun _ _ => rfl
  | readN | searchRight | searchLeft | searchEnd => exact h.mutexed_plainLoad _ _ _
  | beginStore | endStore => exact h.mutexed_storeSeq _ _
  | addCall | checkFail | checkOk => exact h.mutexed.goto _ rfl
  | lock hpc hl =>
      refine .of_owner ((h.mutexed.free hl).frame ?_ (fun _ _ => rfl) fun _ _ => rfl) fun w' _ =>
        h.not_locked hl w'
      rw [ViewState.setLock_mem, ViewState.gotoWriter_mem, Memory.learn_view_self]
      exact le_sup_right
  | load hpc _ | waitOut hpc _ _ | waitIn hpc _ _ | spinAgain hpc _ _ | spinEnd hpc _ _ =>
      exact h.mutexed_owner (hin hpc rfl) ((hcov hpc rfl).learn _)
  | scanFail hpc _ _ _ | scanOk hpc _ _ _ =>
      exact h.mutexed_owner (hin hpc rfl) ((hcov hpc rfl).plainLoad _ _)
  | nomem hpc | waitEnd hpc => exact h.mutexed_owner (hin hpc rfl) (hcov hpc rfl)
  | malloc hpc _ _ _ _ =>
      exact h.mutexed_owner (hin hpc rfl) (((hcov hpc rfl).plainLoad _ _).plainStore _ _)
  | fill hpc _ _ _ _ =>
      exact h.mutexed_owner (hin hpc rfl)
        ((((hcov hpc rfl).plainLoad _ _).plainLoad _ _).plainStore _ _)
  | publish hpc => exact h.mutexed_owner (hin hpc rfl) ((hcov hpc rfl).releaseStore _ _)
  | free hpc => exact h.mutexed_owner (hin hpc rfl) ((hcov hpc rfl).plainStore _ _)
  | unlock hpc => exact .unlock (hcov hpc rfl) (fun w' hne => h.alone (hin hpc rfl) hne) rfl

theorem live_of_readable (h : s.Inv wr) (hp : s.Readable p) :
    ∃ t, (s.mem.value (.block p)).toCell = .live t := by
  obtain ⟨mp, hu⟩ := h.interleaved
  rcases hp with rfl | ⟨i, hp⟩
  · exact hu.owned.current_live
  · exact hu.held_live (i := i) hp

/-- While a writer is at work that waits for nobody, only the current table is read. -/
theorem eq_of_readable (h : s.Inv wr) (hw : wr w = pc) (hl : pc.locked = true)
    (hno : ∀ p i v, ¬ pc.Awaits p i v) (hp : s.Readable p) : p = currentBlock s.mem := by
  obtain ⟨mp, hu⟩ := h.interleaved
  rcases hp with hp | ⟨i, hp⟩
  · exact hp
  · subst hw
    exact hu.holds_current (w := w) hl (fun v => hno p i v) hp

/-- A store to a block that nobody reads. -/
theorem published_store (h : s.Inv wr) (mem : Memory Loc (Thread W) Val)
    (hhist : mem.hist = s.mem.hist) (hview : ∀ t, s.mem.view t ≤ mem.view t) {q : Nat}
    (hq : ∀ p, s.Readable p → p ≠ q) (w : W) (val : Val) :
    Published (mem.plainStore (.inr w) (.block q) val) s.floor s.reader := by
  have hother : ∀ l : Loc, l ≠ .block q →
      (mem.plainStore (.inr w) (.block q) val).hist l = s.mem.hist l := fun l hl => by
    rw [Memory.plainStore_hist_of_ne mem (.inr w) val hl, hhist]
  exact h.published.frame
    (fun t => (hview t).trans (Memory.view_le_plainStore mem (.inr w) t (.block q) val))
    (hother _ nofun) rfl (fun p hp => hother _ fun he => hq p hp (Loc.block.inj he)) fun _ _ => id

omit [DecidableEq W] in
theorem holds_update {rpc : ReaderPc} (hpc : ∀ p, rpc.holds = some p → (s.reader i).holds = some p) :
    ∀ i' p, (Function.update s.reader i rpc i').holds = some p → (s.reader i').holds = some p :=
  (Function.forall_update_iff s.reader fun i' rpc => ∀ p, rpc.holds = some p →
    (s.reader i').holds = some p).mpr ⟨hpc, fun _ _ _ => id⟩

theorem published_step (h : s.Inv wr) (hstep : ViewStep s a s') :
    Published s'.mem s'.floor s'.reader := by
  have hsame : ∀ {i} {pc pc' : ReaderPc}, s.reader i = pc → pc'.holds = pc.holds →
      ∀ p, pc'.holds = some p → (s.reader i).holds = some p :=
    fun hpc hh p hp => hpc ▸ hh ▸ hp
  have hlearn : ∀ t v, Published (s.mem.learn t v) s.floor s.reader := fun t v =>
    h.published.frame (fun u => Memory.view_le_learn s.mem t u v) rfl rfl (fun _ _ => rfl)
      fun _ _ => id
  cases hstep with
  | translateCall hpc =>
      exact h.published.frame (fun _ => le_rfl) rfl rfl (fun _ _ => rfl) (holds_update (hsame hpc rfl))
  | beginLoad hpc _ | endLoad hpc _ =>
      exact h.published.frame (fun u => Memory.view_le_learn s.mem _ u _) rfl rfl (fun _ _ => rfl)
        (holds_update (hsame hpc rfl))
  | loadCurrent hpc hf => exact h.published.loadCurrent hf rfl
  | readN hpc _ _ | searchRight hpc _ _ _ _ | searchLeft hpc _ _ _ _ | searchEnd hpc _ _ _ =>
      exact h.published.frame (fun u => Memory.view_le_plainLoad s.mem _ u _ _) rfl rfl
        (fun _ _ => rfl) (holds_update (hsame hpc rfl))
  | beginStore hpc =>
      exact h.published.frame (fun u => Memory.view_le_releaseStore s.mem _ u _ _)
        (Memory.releaseStore_hist_of_ne s.mem _ _ nofun)
        (floor_ordered_of_ne _ s.mem nofun)
        (fun _ _ => Memory.releaseStore_hist_of_ne s.mem _ _ nofun) (holds_update nofun)
  | endStore hpc =>
      exact h.published.frame (fun u => Memory.view_le_releaseStore s.mem _ u _ _)
        (Memory.releaseStore_hist_of_ne s.mem _ _ nofun) rfl
        (fun _ _ => Memory.releaseStore_hist_of_ne s.mem _ _ nofun) (holds_update nofun)
  | addCall | checkFail | checkOk | nomem | waitEnd | unlock => exact h.published
  | lock | load | waitOut | waitIn | spinAgain | spinEnd => exact hlearn _ _
  | scanFail | scanOk =>
      exact h.published.frame (fun u => Memory.view_le_plainLoad s.mem _ u _ _) rfl rfl
        (fun _ _ => rfl) fun _ _ => id
  | malloc hpc _ _ hnew _ =>
      refine h.published_store (s.mem.plainLoad _ _ _) rfl
        (fun u => Memory.view_le_plainLoad s.mem _ u _ _) ?_ _ _
      rintro p hp rfl
      obtain ⟨t, ht⟩ := h.live_of_readable hp
      rw [hnew] at ht
      cases ht
  | fill hpc _ _ _ _ =>
      have hwr := h.writer_eq hpc nofun
      have hok := h.tables_ok hpc nofun
      refine h.published_store ((s.mem.plainLoad _ _ _).plainLoad _ _ _) rfl
        (fun u => (Memory.view_le_plainLoad s.mem _ u _ _).trans
          (Memory.view_le_plainLoad _ _ u _ _)) (fun p hp he => hok.2.new_ne ?_) _ _
      exact he.symm.trans (h.eq_of_readable hwr rfl (fun _ _ _ => id) hp)
  | publish hpc =>
      exact h.published.publish (h.mutexed.owner _ (congrArg WriterPc.locked hpc)) _
  | free hpc =>
      have hwr := h.writer_eq hpc nofun
      have hok := h.tables_ok hpc nofun
      refine h.published_store s.mem rfl (fun _ => le_rfl) (fun p hp he => hok.1 ?_) _ _
      exact he.symm.trans (h.eq_of_readable hwr rfl (fun _ _ _ => id) hp)

omit [DecidableEq W] in
theorem told_update {rpc : ReaderPc} {floor : Loc → Nat} (hself : Told m' floor i rpc)
    (hother : ∀ k, k ≠ i → Told m' floor k (s.reader k)) :
    ∀ k, Told m' floor k (Function.update s.reader i rpc k) :=
  (Function.forall_update_iff s.reader fun k rpc => Told m' floor k rpc).mpr ⟨hself, hother⟩

theorem told_learn (h : s.Inv wr) (t : Thread W) (v : View Loc (Thread W)) {rpc : ReaderPc}
    (hh : ∀ p, (s.reader i).holds = some p → rpc.holds = some p) :
    Told (s.mem.learn t v) s.floor i rpc :=
  (h.told i).frame (Memory.view_le_learn s.mem t (.inl i) v) rfl rfl hh fun _ _ => rfl

theorem told_plainLoad (h : s.Inv wr) (t : Thread W) (l : Loc) (j : Nat) {rpc : ReaderPc}
    (hh : ∀ p, (s.reader i).holds = some p → rpc.holds = some p)
    (hl : ∀ p, rpc.holds ≠ some p → .inl i ≠ t ∨ .block p ≠ l) :
    Told (s.mem.plainLoad t l j) s.floor i rpc :=
  (h.told i).frame (Memory.view_le_plainLoad s.mem t (.inl i) l j) rfl rfl hh fun p hp =>
    Memory.plainLoad_loads_of_ne s.mem j (hl p hp)

/-- A reader loads from the table that it holds, before and after. -/
theorem told_search (h : s.Inv wr) (hp : (s.reader i).holds = some p) {rpc : ReaderPc}
    (hrpc : rpc.holds = some p) (j : Nat) :
    ∀ k, Told (s.mem.plainLoad (.inl i) (.block p) j) s.floor k (Function.update s.reader i rpc k) := by
  refine told_update (h.told_plainLoad _ _ _ (fun q hq => hrpc.trans (hp.symm.trans hq))
    fun q hq => .inr fun he => ?_) fun k hk => h.told_plainLoad _ _ _ (fun _ => id)
      fun _ _ => .inl fun he => hk (Sum.inl.inj he)
  rw [Loc.block.inj he] at hq
  exact hq hrpc

/-- Another one stores its number. -/
theorem told_storeSeq (h : s.Inv wr) {k : Fin maxReaders} (hk : k ≠ i) (val : Val)
    {floor : Loc → Nat} (hfloor : floor (.seq k) = s.floor (.seq k)) :
    Told (s.mem.releaseStore (.inl i) (.seq i) val) floor k (s.reader k) :=
  (h.told k).frame (Memory.view_le_releaseStore s.mem (.inl i) (.inl k) (.seq i) val)
    (Memory.releaseStore_hist_of_ne s.mem (.inl i) val fun he => hk (Loc.seq.inj he)) hfloor
    (fun _ => id) fun _ _ => rfl

theorem told_step (h : s.Inv wr) (hstep : ViewStep s a s') (k : Fin maxReaders) :
    Told s'.mem s'.floor k (s'.reader k) := by
  cases ha : a.reader? with
  | none =>
      obtain ⟨hw, hreader, hfloor⟩ := hstep.byWriter ha
      rw [hreader]
      exact (h.told k).frame (hw.view _) (hw.seq k) (hfloor k) (fun _ => id) fun _ _ => hw.loads _ k
  | some i =>
      cases hstep with
      | translateCall hpc =>
          exact told_update ((h.told _).frame le_rfl rfl rfl (by rw [hpc]; nofun) fun _ _ => rfl)
            (fun k _ => h.told k) k
      | beginLoad hpc _ | loadCurrent hpc _ =>
          exact told_update (h.told_learn _ _ (by rw [hpc]; nofun))
            (fun k _ => h.told_learn _ _ fun _ => id) k
      | endLoad hpc _ =>
          exact told_update (h.told_learn _ _ (by rw [hpc]; exact fun _ => id))
            (fun k _ => h.told_learn _ _ fun _ => id) k
      | readN hpc _ _ | searchRight hpc _ _ _ _ | searchLeft hpc _ _ _ _ | searchEnd hpc _ _ _ =>
          exact h.told_search (congrArg ReaderPc.holds hpc) rfl _ k
      | beginStore hpc =>
          exact told_update ((h.told _).beginStore h.own _) (fun k hk => h.told_storeSeq hk _
            (floor_ordered_of_ne s s.mem fun he => hk (Loc.seq.inj he))) k
      | endStore hpc =>
          obtain ⟨rfl, hin⟩ := h.fits hpc
          refine told_update ((h.told _).endStore h.own hin ?_) (fun k hk => h.told_storeSeq hk _ rfl) k
          rw [inSection_succ, hin]
          rfl
      | _ => cases ha

/-- Only a reader that holds a table loads from it. -/
theorem loads_eq (hstep : ViewStep s a s') (hp : (s.reader i).holds ≠ some p) :
    s'.mem.loads (.block p) (.inl i) = s.mem.loads (.block p) (.inl i) := by
  have hload : ∀ {k q rpc} (j : Nat), s.reader k = rpc → rpc.holds = some q →
      (s.mem.plainLoad (.inl k) (.block q) j).loads (.block p) (.inl i) =
        s.mem.loads (.block p) (.inl i) := by
    intro k q rpc j hpc hq
    refine Memory.plainLoad_loads_of_ne s.mem j ?_
    by_cases hk : k = i
    · refine .inr fun he => hp ?_
      rw [← hk, hpc, hq, Loc.block.inj he]
    · exact .inl fun he => hk (Sum.inl.inj he).symm
  cases ha : a.reader? with
  | none => exact (hstep.byWriter ha).1.loads _ i
  | some k =>
      cases hstep with
      | translateCall | beginLoad | beginStore | loadCurrent | endLoad | endStore => rfl
      | readN hpc _ _ | searchRight hpc _ _ _ _ | searchLeft hpc _ _ _ _ | searchEnd hpc _ _ _ =>
          exact hload _ hpc rfl
      | _ => cases ha

theorem view_le (hstep : ViewStep s a s') (t : Thread W) : s.mem.view t ≤ s'.mem.view t := by
  cases ha : a.reader? with
  | none => exact (hstep.byWriter ha).1.view t
  | some k =>
      cases hstep with
      | translateCall => exact le_rfl
      | beginLoad | loadCurrent | endLoad => exact Memory.view_le_learn s.mem _ t _
      | beginStore | endStore => exact Memory.view_le_releaseStore s.mem _ t _ _
      | readN | searchRight | searchLeft | searchEnd => exact Memory.view_le_plainLoad s.mem _ t _ _
      | _ => cases ha

/-- A writer passes a reader that it finds outside, or that it finds gone. -/
theorem passed_new (hstep : ViewStep s a s') (hp : (s'.writer w).Passed p i) :
    (s.writer w).Passed p i ∨
      ∃ j msg, s'.mem = s.mem.acquireLoad (.inr w) (.seq i) j msg ∧
        ((∃ rgn, s.writer w = .wait rgn p i) ∧ s.mem.ScFinds s.floor (.inr w) (.seq i) j msg ∧
            inSection msg.val.toNum = false ∨
          ∃ rgn v, s.writer w = .spin rgn p i v ∧ s.mem.Finds (.inr w) (.seq i) j msg ∧
            msg.val.toNum ≠ v) := by
  by_cases hw : a.writer? = some w
  swap
  · rw [hstep.writer_eq hw] at hp
    exact .inl hp
  cases hstep with
  | addCall | checkFail | checkOk | lock | load | scanFail | scanOk | nomem | malloc | free
  | unlock =>
      obtain rfl := Option.some.inj hw
      exact absurd hp (by simp [WriterPc.Passed])
  | fill =>
      obtain rfl := Option.some.inj hw
      rw [ViewState.gotoWriter_writer, Function.update_self] at hp
      exact absurd hp (Stage.after_not_passed _ _ _ _ _)
  | publish =>
      obtain rfl := Option.some.inj hw
      exact absurd hp (by simp [WriterPc.Passed])
  | waitOut hpc hf hout =>
      obtain rfl := Option.some.inj hw
      rw [ViewState.gotoWriter_writer, Function.update_self] at hp
      rw [hpc]
      rcases hp.of_succ with hold | ⟨rfl, rfl⟩
      · exact .inl hold
      · exact .inr ⟨_, _, rfl, .inl ⟨⟨_, rfl⟩, hf, hout⟩⟩
  | waitIn hpc _ _ | spinAgain hpc _ _ =>
      obtain rfl := Option.some.inj hw
      rw [ViewState.gotoWriter_writer, Function.update_self] at hp
      rw [hpc]
      exact .inl hp
  | spinEnd hpc hf hne =>
      obtain rfl := Option.some.inj hw
      rw [ViewState.gotoWriter_writer, Function.update_self] at hp
      rw [hpc]
      rcases hp.of_succ with hold | ⟨rfl, rfl⟩
      · exact .inl hold
      · exact .inr ⟨_, _, rfl, .inr ⟨_, _, rfl, hf, hne⟩⟩
  | waitEnd hpc =>
      obtain rfl := Option.some.inj hw
      rw [ViewState.gotoWriter_writer, Function.update_self] at hp
      rw [hpc]
      exact .inl ⟨hp, i.isLt⟩
  | _ => cases hw

theorem passed_step (h : s.Inv wr) (hstep : ViewStep s a s') (hp : (s'.writer w).Passed p i) :
    s'.mem.loads (.block p) (.inl i) ≤ s'.mem.view (.inr w) (.load (.block p) (.inl i)) := by
  rcases passed_new hstep hp with hold | ⟨j, msg, hmem, hnew⟩
  · rw [loads_eq hstep (h.not_held ((h.follows w).passed hold))]
    exact (h.passed w p i hold).trans (view_le hstep (.inr w) _)
  -- The message that it found knows of all loads.
  have hmsg : s.mem.loads (.block p) (.inl i) ≤ msg.view (.load (.block p) (.inl i)) := by
    rcases hnew with ⟨-, hf, hout⟩ | ⟨rgn, v, hpc, hf, hne⟩
    · have hlast := h.waitOut_last hf hout
      refine (h.told i).told p (h.holds_none ?_ p) msg hlast
      rw [hlast.value_eq]
      exact hout
    · exact (h.passed_of_spin hpc hf hne).2 j msg hf.1 hf.2 hne
  rw [hmem]
  exact hmsg.trans (Memory.msg_view_le_acquireLoad s.mem (.inr w) (.seq i) j msg _)

theorem not_readable_of_builds (h : s.Inv wr) (hw : (s.writer w).builds = some p) :
    ¬ s.Readable p := by
  intro hp
  cases hpc : s.writer w with
  | fill rgn old new pos stage =>
      rw [hpc] at hw
      obtain rfl := Option.some.inj hw
      have hok := h.tables_ok hpc nofun
      exact hok.2.new_ne (h.eq_of_readable (h.writer_eq hpc nofun) rfl (fun _ _ _ => id) hp)
  | publish rgn old new =>
      rw [hpc] at hw
      obtain rfl := Option.some.inj hw
      obtain ⟨-, pos, hb⟩ := h.tables_ok hpc nofun
      exact hb.new_ne (h.eq_of_readable (h.writer_eq hpc nofun) rfl (fun _ _ _ => id) hp)
  | _ =>
      rw [hpc] at hw
      cases hw

theorem not_readable_of_untouched (h : s.Inv wr) (hu : s.Untouched p) : ¬ s.Readable p := by
  rcases hu with hfresh | ⟨w, hw⟩
  · intro hp
    obtain ⟨t, ht⟩ := h.live_of_readable hp
    rw [hfresh] at ht
    cases ht
  · exact h.not_readable_of_builds hw

/-- A step leaves a block as it is, or stores a table to it, or frees it. -/
theorem value_block (hstep : ViewStep s a s') (p : Nat) :
    s'.mem.value (.block p) = s.mem.value (.block p) ∨ (s'.mem.value (.block p)).toCell ≠ .fresh := by
  have hstore : ∀ {mem : Memory Loc (Thread W) Val} (w : W) (q : Nat) {c : Cell}, c ≠ .fresh →
      mem.hist = s.mem.hist →
      (mem.plainStore (.inr w) (.block q) (.cell c)).value (.block p) = s.mem.value (.block p) ∨
        ((mem.plainStore (.inr w) (.block q) (.cell c)).value (.block p)).toCell ≠ .fresh := by
    intro mem w q c hc hmem
    rw [Memory.plainStore_value]
    by_cases hp : p = q
    · subst hp
      rw [Function.update_self]
      exact .inr hc
    · rw [Function.update_of_ne fun he => hp (Loc.block.inj he)]
      exact .inl (Memory.value_congr (congrFun hmem _))
  cases hstep with
  | beginStore | endStore | publish =>
      exact .inl (Memory.value_congr (Memory.releaseStore_hist_of_ne _ _ _ nofun))
  | malloc => exact hstore _ _ nofun rfl
  | fill => exact hstore _ _ nofun rfl
  | free => exact hstore _ _ nofun rfl
  | _ => exact .inl rfl

/-- A writer takes a block that was never used. -/
theorem builds_new (hstep : ViewStep s a s') (hw : (s'.writer w).builds = some p) :
    (s.writer w).builds = some p ∨ (s.mem.value (.block p)).toCell = .fresh := by
  by_cases hmove : a.writer? = some w
  swap
  · rw [hstep.writer_eq hmove] at hw
    exact .inl hw
  cases hstep with
  | malloc _ _ _ hnew _ =>
      obtain rfl := Option.some.inj hmove
      rw [ViewState.gotoWriter_writer, Function.update_self] at hw
      obtain rfl := Option.some.inj hw
      exact .inr (congrArg Val.toCell hnew)
  | fill hpc _ _ _ _ =>
      obtain rfl := Option.some.inj hmove
      rw [ViewState.gotoWriter_writer, Function.update_self, Stage.after_builds] at hw
      rw [hpc]
      exact .inl hw
  | addCall | checkFail | checkOk | lock | load | scanFail | scanOk | nomem | publish | waitOut
  | waitIn | spinAgain | spinEnd | waitEnd | free | unlock =>
      obtain rfl := Option.some.inj hmove
      exact absurd hw (by simp [WriterPc.builds])
  | _ => cases hmove

theorem unread_step (h : s.Inv wr) (hstep : ViewStep s a s') (hu : s'.Untouched p) :
    s'.mem.loads (.block p) (.inl i) = 0 := by
  have hold : s.Untouched p := by
    rcases hu with hfresh | ⟨w, hw⟩
    · rcases value_block hstep p with hsame | hne
      · rw [hsame] at hfresh
        exact .inl hfresh
      · exact absurd hfresh hne
    · rcases builds_new hstep hw with hw | hfresh
      · exact .inr ⟨w, hw⟩
      · exact .inl hfresh
  have hread := h.not_readable_of_untouched hold
  rw [loads_eq hstep fun hp => hread (.inr ⟨i, hp⟩)]
  exact h.unread i p hold

/-! ## Executions -/

theorem step (h : s.Inv wr) (hstep : ViewStep s a s') :
    ∃ bs wr', (machine W).Exec (s.seen wr) bs (s'.seen wr') ∧
      bs.filter Act.visible = [a].filter Act.visible ∧ s'.Inv wr' := by
  obtain ⟨bs, wr', hexec, hvisible, hfollows⟩ := h.simulates_step hstep
  exact ⟨bs, wr', hexec, hvisible,
    { reachable := reachable_exec h.reachable hexec
      follows := hfollows
      own := h.own_step hstep
      mutexed := h.mutexed_step hstep
      published := h.published_step hstep
      told := h.told_step hstep
      passed := fun _ _ _ => h.passed_step hstep
      unread := fun _ _ => h.unread_step hstep }⟩

theorem exec (h : s.Inv wr) {as : List (Act W)} (hexec : (viewMachine W).Exec s as s') :
    ∃ bs wr', (machine W).Exec (s.seen wr) bs (s'.seen wr') ∧
      bs.filter Act.visible = as.filter Act.visible ∧ s'.Inv wr' := by
  induction hexec generalizing wr with
  | nil => exact ⟨[], wr, .nil, rfl, h⟩
  | @cons s a s₁ as s' hstep _ ih =>
      obtain ⟨bs, wr₁, hbs, hvisible, h₁⟩ := h.step hstep
      obtain ⟨cs, wr', hcs, hvisible', h'⟩ := ih h₁
      refine ⟨bs ++ cs, wr', hbs.append hcs, ?_, h'⟩
      rw [List.filter_append, hvisible, hvisible', ← List.filter_append]
      rfl

end ViewState.Inv

theorem seen_viewStart (W : Type) : (viewStart W).seen (fun _ => .idle) = start W := by
  refine congrArg (fun heap => State.mk _ heap _ _ _ _) (funext fun p => ?_)
  show (if p = 0 then Cell.live .empty else .fresh) = _
  rw [Function.update_apply]

theorem inv_viewStart : (viewStart W).Inv fun _ => .idle where
  reachable := .init (seen_viewStart W)
  follows _ := rfl
  own := .init _
  mutexed := ⟨nofun, fun _ _ _ => .init _ _ _ _⟩
  published :=
    { newest := le_rfl
      built := fun _ _ => Nat.le_add_left 1 _
      held := nofun }
  told _ :=
    { latest := Nat.le_add_left 1 _
      tail := .inl rfl
      told := fun _ _ _ _ => Nat.zero_le _ }
  passed _ _ _ hp := hp.elim
  unread _ _ _ := rfl

/-! ## No race -/

/-- The block that a writer stores to. -/
def WriterPc.stores : WriterPc → Option Nat
  | .fill _ _ new _ _ => some new
  | .free _ old => some old
  | _ => none

namespace ViewState.Inv

theorem mayStore (h : s.Inv wr) (hl : (s.writer w).locked)
    (hloads : ∀ i, s.mem.loads (.block p) (.inl i) ≤
      s.mem.view (.inr w) (.load (.block p) (.inl i))) :
    s.mem.MayStore (.inr w) (.block p) := by
  refine (h.mutexed.owner w hl (.block p) trivial).mayStore fun u hu => ?_
  cases u with
  | inl i => exact hloads i
  | inr w' => exact absurd ⟨w', rfl⟩ hu

theorem mayStore_untouched (h : s.Inv wr) (hl : (s.writer w).locked) (hu : s.Untouched p) :
    s.mem.MayStore (.inr w) (.block p) :=
  h.mayStore hl fun i => by
    rw [h.unread i p hu]
    exact Nat.zero_le _

/-- What a writer stores to is live, and no thread is at work on it. -/
theorem mayStore_stores (h : s.Inv wr) (hw : (s.writer w).stores = some p) :
    s.mem.MayStore (.inr w) (.block p) ∧ ∃ t, (s.mem.value (.block p)).toCell = .live t := by
  cases hpc : s.writer w with
  | fill rgn old new pos stage =>
      rw [hpc] at hw
      obtain rfl := Option.some.inj hw
      obtain ⟨-, hb⟩ := h.tables_ok hpc nofun
      obtain ⟨t, block, -, -, -, hnew⟩ := hb.stored
      exact ⟨h.mayStore_untouched (congrArg WriterPc.locked hpc) (.inr ⟨w, by rw [hpc]; rfl⟩), _, hnew⟩
  | free rgn old =>
      rw [hpc] at hw
      obtain rfl := Option.some.inj hw
      obtain ⟨-, hlive⟩ := h.tables_ok hpc nofun
      exact ⟨h.mayStore (congrArg WriterPc.locked hpc) fun i => h.passed w old i (by rw [hpc]; rfl),
        hlive⟩
  | _ =>
      rw [hpc] at hw
      cases hw

/-- What a writer copies from is the current table. -/
theorem mayLoad_copies (h : s.Inv wr) (hw : (s.writer w).copies = some p) :
    s.mem.MayLoad (.inr w) (.block p) ∧ ∃ t, (s.mem.value (.block p)).toCell = .live t := by
  cases hpc : s.writer w with
  | scan | alloc | fill =>
      have hwr := h.writer_eq hpc nofun
      obtain ⟨mp, hu⟩ := h.interleaved
      have hcopies : ((s.seen wr).writer w).copies = some p := by
        rw [show (s.seen wr).writer w = _ from hwr, ← hpc]
        exact hw
      exact ⟨(h.mutexed.owner w (congrArg WriterPc.locked hpc) (.block p) trivial).stores,
        hu.owned.copied_live hcopies⟩
  | _ =>
      rw [hpc] at hw
      cases hw

end ViewState.Inv

/-- The memory orders of the mini-RCU are enough.  Every execution on the memory with views has an
interleaved one with the same calls, answers, publishes and frees in the same order, whose readers are at
the same places.  Each load of a table, by a reader or by a writer that copies it, and each store to one,
the `free` included, finds the table live and is no race.  A block that is taken by `malloc` is not
accessed by another thread, and who stores to `current` or to a number knows its last value. -/
theorem rcu_race_free {as : List (Act W)} {s : ViewState W}
    (h : (viewMachine W).Exec (viewStart W) as s) :
    (∃ bs u, (machine W).Exec (start W) bs u ∧
      bs.filter Act.visible = as.filter Act.visible ∧ u.reader = s.reader) ∧
    (∀ i p, (s.reader i).holds = some p →
      s.mem.MayLoad (.inl i) (.block p) ∧ ∃ t, (s.mem.value (.block p)).toCell = .live t) ∧
    (∀ w p, (s.writer w).copies = some p →
      s.mem.MayLoad (.inr w) (.block p) ∧ ∃ t, (s.mem.value (.block p)).toCell = .live t) ∧
    (∀ w p, (s.writer w).stores = some p →
      s.mem.MayStore (.inr w) (.block p) ∧ ∃ t, (s.mem.value (.block p)).toCell = .live t) ∧
    (∀ w p, (s.writer w).locked → (s.mem.value (.block p)).toCell = .fresh →
      s.mem.MayStore (.inr w) (.block p)) ∧
    (∀ i, s.mem.Latest (.inl i) (.seq i)) ∧
    ∀ w, (s.writer w).locked → s.mem.Latest (.inr w) .current := by
  obtain ⟨bs, wr, hexec, hvisible, hinv⟩ := inv_viewStart.exec h
  rw [seen_viewStart] at hexec
  exact ⟨⟨bs, _, hexec, hvisible, rfl⟩,
    fun i p hp => ⟨hinv.published.held i p hp, hinv.live_of_readable (.inr ⟨i, hp⟩)⟩,
    fun w p hp => hinv.mayLoad_copies hp, fun w p hp => hinv.mayStore_stores hp,
    fun w p hl hfresh => hinv.mayStore_untouched hl (.inl hfresh),
    fun i => (hinv.told i).latest,
    fun w hl => (hinv.mutexed.owner w hl .current trivial).stores⟩

end

/-- A writer passes the readers from `k` on, if they never were in a section. -/
theorem exec_waitOut [DecidableEq W] {s : ViewState W} {w : W} {rgn : Region} {old k n : Nat}
    (hk : k + n = maxReaders) (hpc : s.writer w = .wait rgn old k)
    (hseq : ∀ i : Fin maxReaders, k ≤ i → s.mem.hist (.seq i) = [⟨.num 0, ⊥⟩])
    (hview : ∀ i : Fin maxReaders, k ≤ i → s.mem.view (.inr w) (.store (.seq i)) = 0)
    (hfloor : ∀ i : Fin maxReaders, k ≤ i → s.floor (.seq i) = 0) :
    (viewMachine W).Exec s (List.replicate n (.writerStep w))
      (s.gotoWriter s.mem w (.wait rgn old maxReaders)) := by
  induction n generalizing s k with
  | zero =>
      obtain rfl : k = maxReaders := hk
      refine .of_eq ?_
      rw [ViewState.gotoWriter, ← hpc, Function.update_eq_self]
  | succ n ih =>
      let i : Fin maxReaders := ⟨k, by omega⟩
      have hf : s.mem.ScFinds s.floor (.inr w) (.seq i) 0 ⟨.num 0, ⊥⟩ := by
        refine ⟨⟨(hview i le_rfl).le, ?_⟩, (hfloor i le_rfl).le⟩
        rw [hseq i le_rfl]
        rfl
      have hstep := ViewStep.waitOut (i := i) hpc hf (show inSection 0 = false by decide)
      -- There is nothing to learn from the first number.
      rw [Memory.acquireLoad, Memory.learn_of_le (sup_le (View.upTo_le_iff.mpr (Nat.zero_le _)) bot_le)]
        at hstep
      have hrest := ih (s := s.gotoWriter s.mem w (.wait rgn old (k + 1))) (k := k + 1) (by omega)
        (Function.update_self ..) (fun i hi => hseq i (by omega)) (fun i hi => hview i (by omega))
        fun i hi => hfloor i (by omega)
      refine .cons hstep ?_
      rw [show (s.gotoWriter s.mem w (.wait rgn old (k + 1))).gotoWriter
        (s.gotoWriter s.mem w (.wait rgn old (k + 1))).mem w (.wait rgn old maxReaders) =
          s.gotoWriter s.mem w (.wait rgn old maxReaders) by simp [ViewState.gotoWriter]] at hrest
      exact hrest

/-- `malloc` for the region that goes into the empty table.  The one slot of the block holds anything. -/
theorem ViewStep.malloc_one [DecidableEq W] {s : ViewState W} {w : W} {rgn : Region}
    {old pos j : Nat} {msg : Msg Loc (Thread W) Val} (new : Nat) (junk : Region)
    (hpc : s.writer w = .alloc rgn old pos) (hf : s.mem.Finds (.inr w) (.block old) j msg)
    (ht : msg.val.Shows .empty) (hnew : s.mem.value (.block new) = .cell .fresh) :
    ViewStep s (.writerStep w)
      (s.gotoWriter ((s.mem.plainLoad (.inr w) (.block old) j).plainStore (.inr w) (.block new)
        (.cell (.live ⟨0, [junk]⟩))) w (.fill rgn old new pos .low)) :=
  .malloc hpc hf ht hnew rfl

/-- A reader is in its section while a writer replaces the table.  The writer waits until the reader has
left, which it does not notice at once. -/
theorem exec_spin : ∃ as, ∃ s : ViewState Unit, (viewMachine Unit).Exec (viewStart Unit) as s ∧
    s.writer () = .wait ⟨0, 1, 0⟩ 0 1 ∧ s.mem.loads (.block 0) (.inl 0) = 2 ∧
    (∀ i : Fin maxReaders, 1 ≤ i.val → s.mem.hist (.seq i) = [⟨.num 0, ⊥⟩]) ∧
    (∀ i : Fin maxReaders, 1 ≤ i.val → s.mem.view (.inr ()) (.store (.seq i)) = 0) ∧
    ∀ i : Fin maxReaders, 1 ≤ i.val → s.floor (.seq i) = 0 := by
  have hspin : (viewMachine Unit).Exec (viewStart Unit)
      [.translateCall 0 0 0, .readerStep 0, .readerStep 0, .readerStep 0, .readerStep 0,
        .addCall () ⟨0, 1, 0⟩, .writerStep (), .writerStep (), .writerStep (), .writerStep (),
        .writerStep (), .writerStep (), .writerStep (), .writerStep (), .writerStep (),
        .publish () ⟨0, 1, 0⟩ 0 1, .writerStep (), .readerStep 0, .readerStep 0,
        .translateRet 0 0 0 (false, 0), .writerStep (), .writerStep ()] _ :=
    .cons (.translateCall rfl) <|
    .cons (.beginLoad (j := 0) rfl ⟨le_rfl, rfl⟩) <|
    .cons (.beginStore rfl) <|
    .cons (.loadCurrent (j := 0) rfl ⟨⟨le_rfl, rfl⟩, le_rfl⟩) <|
    .cons (.readN (p := 0) (j := 0) (t := .empty) rfl ⟨le_rfl, rfl⟩
      (fun _ ht => Cell.live.inj ht)) <|
    .cons (.addCall rfl) <|
    .cons (.checkOk rfl rfl) <|
    .cons (.lock rfl rfl) <|
    .cons (.load (j := 0) rfl ⟨le_rfl, rfl⟩) <|
    .cons (.scanOk (j := 0) (t := .empty) rfl ⟨le_rfl, rfl⟩ (fun _ ht => Cell.live.inj ht)
      (findPos_empty _)) <|
    .cons (.malloc_one (j := 0) 1 ⟨7, 7, 7⟩ rfl ⟨le_rfl, rfl⟩ (fun _ ht => Cell.live.inj ht) rfl) <|
    .cons (.fill (j := 0) (k := 1) (t := .empty) rfl ⟨le_rfl, rfl⟩
      (fun _ ht => Cell.live.inj ht) ⟨le_rfl, rfl⟩ (fun _ ht => Cell.live.inj ht)) <|
    .cons (.fill (j := 0) (k := 2) (t := .empty) rfl ⟨le_rfl, rfl⟩
      (fun _ ht => Cell.live.inj ht) ⟨le_rfl, rfl⟩ (fun _ ht => Cell.live.inj ht)) <|
    .cons (.fill (j := 0) (k := 3) (t := .empty) rfl ⟨le_rfl, rfl⟩
      (fun _ ht => Cell.live.inj ht) ⟨le_rfl, rfl⟩ (fun _ ht => Cell.live.inj ht)) <|
    .cons (.fill (j := 0) (k := 4) (t := .empty) rfl ⟨le_rfl, rfl⟩
      (fun _ ht => Cell.live.inj ht) ⟨le_rfl, rfl⟩ (fun _ ht => Cell.live.inj ht)) <|
    .cons (.publish rfl) <|
    .cons (.waitIn (i := 0) (j := 1) rfl ⟨⟨Nat.zero_le 1, rfl⟩, le_rfl⟩ rfl) <|
    .cons (.searchEnd (p := 0) (j := 0) (t := .empty) rfl (lt_irrefl 0) ⟨le_rfl, rfl⟩
      (fun _ ht => Cell.live.inj ht)) <|
    .cons (.endLoad (j := 1) rfl ⟨le_rfl, rfl⟩) <|
    .cons (.endStore rfl) <|
    -- The load may still find the old number.
    .cons (.spinAgain (j := 1) rfl ⟨le_rfl, rfl⟩ rfl) <|
    .cons (.spinEnd (j := 2) rfl ⟨Nat.le_succ 1, rfl⟩ (by decide)) .nil
  refine ⟨_, _, hspin, rfl, rfl, fun i hi => ?_, fun i hi => ?_, fun i hi => ?_⟩
  all_goals fin_cases i
  all_goals first
    | exact absurd hi (by decide)
    | rfl

/-- Then it waits for the others, and has come to free the old table. -/
theorem rcu_race_free_retired :
    ∃ as, ∃ s : ViewState Unit, (viewMachine Unit).Exec (viewStart Unit) as s ∧
      s.writer () = .free ⟨0, 1, 0⟩ 0 ∧
      s.mem.loads (.block 0) (.inl 0) = 2 ∧
      s.mem.MayStore (.inr ()) (.block 0) ∧
      ∃ bs u, (machine Unit).Exec (start Unit) bs u ∧
        bs.filter Act.visible = as.filter Act.visible ∧ u.reader = s.reader := by
  obtain ⟨as, s, hspin, hpc, hloads, hseq, hview, hfloor⟩ := exec_spin
  have hwait := hspin.append (exec_waitOut (n := 7) rfl hpc hseq hview hfloor)
  have h := hwait.append (.cons (.waitEnd (w := ()) rfl) .nil)
  obtain ⟨hexec, -, -, hstored, -⟩ := rcu_race_free h
  exact ⟨_, _, h, rfl, hloads, (hstored () 0 rfl).1, hexec⟩

end Rcu
