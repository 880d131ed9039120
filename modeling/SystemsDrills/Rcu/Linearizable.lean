import SystemsDrills.Rcu.Reclamation

/-!
# `translate` is linearizable

The abstract object is the map of the regions published so far.  It grows by one
region at each publish, and a call of `translate` answers as the map did at the
moment the call loaded `current`.

A reader searches its table in many steps, in which other regions may be
published.  That it is still the table it loaded follows from the invariant:
while a reader holds a table nobody writes into it.
-/

namespace Rcu

open Transition GuestMemory GuestMemory.Sorted Search

/-- What `translate` answers when the map is `m`: hit or miss, and what `*hva`
holds afterwards. -/
noncomputable def answer (m : MemoryMap) (gpa hva : UInt64) : Bool × UInt64 :=
  match m.translate gpa with
  | some v => (true, v)
  | none => (false, hva)

/-- The reader that makes the step. -/
def Act.reader? {W : Type} : Act W → Option (Fin maxReaders)
  | .translateCall i _ _ | .readerStep i | .translateRet i _ _ _ => some i
  | _ => none

/-- The start of a call of `translate` by reader `i`. -/
def Act.startsTranslate {W : Type} (i : Fin maxReaders) (a : Act W) : Prop :=
  ∃ gpa hva, a = .translateCall i gpa hva

/-- The arguments of the call a reader is in. -/
def ReaderPc.args : ReaderPc → Option (UInt64 × UInt64)
  | .idle => none
  | .beginLoad gpa hva | .beginStore gpa hva _ | .loadCurrent gpa hva | .lookup _ gpa hva
  | .search _ gpa hva _ _ | .endLoad _ gpa hva _ | .endStore _ gpa hva _ _ => some (gpa, hva)

/-- The reader is searching the table `t`: it is in the block the reader holds,
and what is left of the search leads to the answer of `t`. -/
def ReaderPc.Searches (heap : Nat → Cell) (t : RegionTable) : ReaderPc → Prop
  | .lookup p _ _ => heap p = .live t
  | .search p gpa _ lo hi => heap p = .live t ∧
      bisect (startsAtOrBelow t gpa) lo hi = bisect (startsAtOrBelow t gpa) 0 t.n
  | .endLoad p gpa hva ans | .endStore p gpa hva ans _ => heap p = .live t ∧
      ans = Sorted.lookup t gpa hva
  | _ => False

section

variable {W : Type} {s s' : State W} {m : MemoryMap}

theorem ReaderPc.Searches.heap_eq {heap : Nat → Cell} {t : RegionTable} {pc : ReaderPc} {p : Nat}
    (h : pc.Searches heap t) (hp : pc.holds = some p) : heap p = .live t := by
  cases pc with
  | idle | beginLoad | beginStore | loadCurrent => cases hp
  | lookup => exact Option.some.inj hp ▸ h
  | search | endLoad | endStore => exact Option.some.inj hp ▸ h.1

/-- Only the block that is held matters. -/
theorem ReaderPc.Searches.congr {heap heap' : Nat → Cell} {t : RegionTable} {pc : ReaderPc}
    (h : pc.Searches heap t) (hp : ∀ p, pc.holds = some p → heap' p = heap p) :
    pc.Searches heap' t := by
  cases pc with
  | idle | beginLoad | beginStore | loadCurrent => exact h
  | lookup => exact (hp _ rfl).trans h
  | search | endLoad | endStore => exact ⟨(hp _ rfl).trans h.1, h.2⟩

variable [DecidableEq W]

/-- A reader moves only by its own steps. -/
theorem Step.reader_eq {a : Act W} {i : Fin maxReaders} (h : Step s a s')
    (hi : a.reader? ≠ some i) : s'.reader i = s.reader i := by
  have hne : ∀ {j : Fin maxReaders}, some j ≠ some i → i ≠ j := fun h he => h (he ▸ rfl)
  cases h with
  | translateCall _ | beginLoad _ | beginStore _ | loadCurrent _ | readN _ _ | searchRight _ _ _ _
  | searchLeft _ _ _ _ | searchEnd _ _ _ | endLoad _ | endStore _ =>
      exact Function.update_of_ne (hne hi) _ _
  | _ => rfl

/-- Nobody writes into a table that a reader holds. -/
theorem Step.heap_held {a : Act W} {i : Fin maxReaders} {p : Nat} (hs : s.Inv m)
    (h : Step s a s') (hp : (s.reader i).holds = some p) : s'.heap p = s.heap p := by
  obtain ⟨t, ht⟩ := hs.held_live hp
  -- A writer inside the lock that waits for nobody knows that `p` is current.
  have hcur : ∀ {w pc}, s.writer w = pc → pc.locked → (∀ q v, ¬ pc.Awaits q i v) →
      p = s.current := by
    intro w pc hpc hl hno
    rcases hs.held i p hp with h | ⟨w', hw'⟩
    · exact h
    · obtain rfl := hs.owned.unique (hpc ▸ hl) hw'.locked
      rw [hpc] at hw'
      exact absurd hw' (hno _ _)
  cases h with
  | malloc _ _ hnew _ =>
      refine Function.update_of_ne ?_ _ _
      rintro rfl
      rw [ht] at hnew
      cases hnew
  | @fill _ w _ _ _ _ _ _ _ hpc _ _ =>
      have hok := hs.owned.ok w
      rw [hpc] at hok
      refine Function.update_of_ne ?_ _ _
      rw [hcur hpc rfl fun _ _ => id]
      exact hok.2.new_ne.symm
  | @free _ w _ _ hpc =>
      have hok := hs.owned.ok w
      rw [hpc] at hok
      refine Function.update_of_ne ?_ _ _
      rw [hcur hpc rfl fun _ _ => id]
      exact hok.1.symm
  | _ => rfl

/-- A reader that holds a table has just loaded the current one, or goes on with
the search it was in. -/
theorem Step.searches {a : Act W} {i : Fin maxReaders} (hs : s.Inv m) (h : Step s a s')
    (hp : ∃ p, (s'.reader i).holds = some p) :
    (∃ t, s'.heap s'.current = .live t ∧ (s'.reader i).Searches s'.heap t) ∨
    ¬ a.startsTranslate i ∧ (∃ p, (s.reader i).holds = some p) ∧
      ∀ t, (s.reader i).Searches s.heap t → (s'.reader i).Searches s'.heap t := by
  by_cases hi : a.reader? = some i
  swap
  · have hsame := h.reader_eq hi
    rw [hsame] at hp ⊢
    refine .inr ⟨?_, hp, fun t ht => ht.congr fun p hp => h.heap_held hs hp⟩
    rintro ⟨_, _, rfl⟩
    exact hi rfl
  obtain ⟨p, hp⟩ := hp
  cases h with
  | translateCall _ | beginLoad _ | beginStore _ | endStore _ =>
      obtain rfl := Option.some.inj hi
      rw [State.gotoReader_reader, Function.update_self] at hp
      cases hp
  | loadCurrent hpc =>
      obtain rfl := Option.some.inj hi
      obtain ⟨t, ht⟩ := hs.owned.current_live
      refine .inl ⟨t, ht, ?_⟩
      rw [State.gotoReader_reader, Function.update_self]
      exact ht
  | readN hpc ht =>
      obtain rfl := Option.some.inj hi
      rw [State.gotoReader_reader, Function.update_self, hpc]
      refine .inr ⟨nofun, ⟨_, rfl⟩, fun t' ht' => ?_⟩
      obtain rfl := ht.eq ht'
      exact ⟨ht', rfl⟩
  | searchRight hpc hlt ht hcmp =>
      obtain rfl := Option.some.inj hi
      rw [State.gotoReader_reader, Function.update_self, hpc]
      refine .inr ⟨nofun, ⟨_, rfl⟩, fun t' ht' => ?_⟩
      obtain rfl := ht.eq ht'.1
      exact ⟨ht'.1, (bisect_right hlt hcmp).symm.trans ht'.2⟩
  | searchLeft hpc hlt ht hcmp =>
      obtain rfl := Option.some.inj hi
      rw [State.gotoReader_reader, Function.update_self, hpc]
      refine .inr ⟨nofun, ⟨_, rfl⟩, fun t' ht' => ?_⟩
      obtain rfl := ht.eq ht'.1
      exact ⟨ht'.1, (bisect_left hlt hcmp).symm.trans ht'.2⟩
  | searchEnd hpc hge ht =>
      obtain rfl := Option.some.inj hi
      rw [State.gotoReader_reader, Function.update_self, hpc]
      refine .inr ⟨nofun, ⟨_, rfl⟩, fun t' ht' => ?_⟩
      obtain rfl := ht.eq ht'.1
      refine ⟨ht'.1, ?_⟩
      rw [Sorted.lookup, ← ht'.2, bisect_of_ge hge]
  | endLoad hpc =>
      obtain rfl := Option.some.inj hi
      rw [State.gotoReader_reader, Function.update_self, hpc]
      exact .inr ⟨nofun, ⟨_, rfl⟩, fun _ => id⟩
  | _ => cases hi

/-- The arguments of a call are those it was made with. -/
theorem Step.args_new {a : Act W} {i : Fin maxReaders} {gpa hva : UInt64} (h : Step s a s')
    (hx : (s'.reader i).args = some (gpa, hva)) :
    a = .translateCall i gpa hva ∨
    ¬ a.startsTranslate i ∧ (s.reader i).args = some (gpa, hva) := by
  by_cases hi : a.reader? = some i
  swap
  · rw [h.reader_eq hi] at hx
    refine .inr ⟨?_, hx⟩
    rintro ⟨_, _, rfl⟩
    exact hi rfl
  cases h with
  | translateCall hpc =>
      obtain rfl := Option.some.inj hi
      rw [State.gotoReader_reader, Function.update_self] at hx
      obtain ⟨rfl, rfl⟩ := Prod.mk.inj (Option.some.inj hx)
      exact .inl rfl
  | beginLoad hpc | beginStore hpc | loadCurrent hpc | readN hpc _ | searchRight hpc _ _ _
  | searchLeft hpc _ _ _ | searchEnd hpc _ _ | endLoad hpc =>
      obtain rfl := Option.some.inj hi
      rw [State.gotoReader_reader, Function.update_self] at hx
      exact .inr ⟨nofun, hpc ▸ hx⟩
  | endStore hpc =>
      obtain rfl := Option.some.inj hi
      rw [State.gotoReader_reader, Function.update_self] at hx
      cases hx
  | _ => cases hi

theorem Step.translateRet_inv {i : Fin maxReaders} {gpa hva : UInt64} {ans : Bool × UInt64}
    (h : Step s (.translateRet i gpa hva ans) s') :
    ∃ p v, s.reader i = .endStore p gpa hva ans v := by
  cases h with
  | endStore hpc => exact ⟨_, _, hpc⟩

end

/-! ## The published map -/

section Runs

variable {W : Type} [DecidableEq W] {n : Nat} (r : Run (machine W) n)

/-- The map of the regions published before moment `k`. -/
noncomputable def registered (k : Nat) : MemoryMap :=
  (r.seen Act.published k).foldl (fun m rgn => (m.add rgn).2) .empty

theorem registered_succ (k : Nat) :
    registered r (k + 1) = (r.act k).after (registered r k) := by
  rw [registered, r.seen_succ, List.foldl_append, ← registered, Act.after]
  cases (r.act k).published <;> rfl

theorem inv_run {k : Nat} (hk : k ≤ n) : (r.st k).Inv (registered r k) := by
  refine r.induct_from (P := fun k => (r.st k).Inv (registered r k)) ?_ ?_ (Nat.zero_le k) hk
  · rw [show r.st 0 = start W from r.start]
    exact inv_start
  · intro k _ _ h ih
    rw [registered_succ]
    exact ih.step h

theorem registered_mono {k l : Nat} (h : k ≤ l) :
    (registered r k).regions ⊆ (registered r l).regions := by
  induction l, h using Nat.le_induction with
  | base => exact subset_rfl
  | succ l _ ih =>
      refine ih.trans ?_
      rw [registered_succ, Act.after]
      split
      · exact MemoryMap.subset_add _ _
      · exact subset_rfl

/-- A publish adds its region to the map. -/
theorem add_of_publish {k : Nat} (hk : k < n) {w : W} {rgn : Region} {old new : Nat}
    (h : r.act k = .publish w rgn old new) :
    (registered r k).add rgn = (.added, registered r (k + 1)) := by
  have hstep := r.next k hk
  rw [h] at hstep
  have hadd : ((registered r k).add rgn).1 = .added := by
    generalize r.st (k + 1) = s' at hstep
    cases hstep with
    | publish hpc => exact ((inv_run r hk.le).owned.publish hpc).1
  have hnext : registered r (k + 1) = ((registered r k).add rgn).2 := by
    rw [registered_succ, h]
    rfl
  exact Prod.ext hadd hnext.symm

/-- A region whose call returned `ADD_OK` is in the map. -/
theorem mem_registered_of_addOk {c : Nat} (hc : c < n) {w : W} {rgn : Region}
    (h : r.act c = .addRet w rgn .addOk) : rgn ∈ (registered r c).regions := by
  obtain ⟨a, p, f, old, new, -, -, hpf, hfc, hp, -⟩ := steps_of_addOk r hc h
  have hadd := add_of_publish r (by omega) hp
  have hmem := MemoryMap.mem_add_of_added (congrArg Prod.fst hadd)
  rw [hadd] at hmem
  exact registered_mono r (k := p + 1) (by omega) hmem

/-! ## Linearization -/

/-- A reader that holds a table loaded it, as the current one, at a moment of its
call, and it is a table of the map of that moment. -/
theorem searches_run {k : Nat} (hk : k ≤ n) {i : Fin maxReaders} {p : Nat}
    (hp : ((r.st k).reader i).holds = some p) :
    ∃ m ≤ k, ∃ t, t.Represents (registered r m) ∧ ((r.st k).reader i).Searches (r.st k).heap t ∧
      ∀ l, m ≤ l → l < k → ¬ (r.act l).startsTranslate i := by
  obtain ⟨m, hm, ⟨t, ht, hsearch⟩, hno⟩ := r.exists_snapshot (C := Act.startsTranslate i)
    (I := fun s => ∃ p, (s.reader i).holds = some p)
    (Q := fun s u => ∃ t, u.heap u.current = .live t ∧ (s.reader i).Searches s.heap t)
    (fun s hs ⟨_, hx⟩ => by rw [show s = start W from hs] at hx; cases hx)
    (fun s a s' hr hs hx => by
      obtain ⟨m, hm⟩ := inv_invariant.reachable hr
      exact (Step.searches hm hs hx).imp_right fun ⟨hc, hp, hkeep⟩ =>
        ⟨hc, hp, fun u ⟨t, ht, hsearch⟩ => ⟨t, ht, hkeep t hsearch⟩⟩) hk ⟨p, hp⟩
  obtain ⟨t', ht', hrep⟩ := (inv_run r (hm.trans hk)).owned.cur
  obtain rfl : t = t' := by
    rw [ht] at ht'
    exact Cell.live.inj ht'
  exact ⟨m, hm, t, hrep, hsearch, hno⟩

/-- The moment at which a call of `translate` takes effect. -/
theorem translate_moment {j : Nat} (hj : j < n) {i : Fin maxReaders} {gpa hva : UInt64}
    {ans : Bool × UInt64} (h : r.act j = .translateRet i gpa hva ans) :
    ∃ a m, r.Last (Act.startsTranslate i) a j ∧ r.act a = .translateCall i gpa hva ∧ a < m ∧
      m ≤ j ∧ ans = answer (registered r m) gpa hva := by
  have hstep := r.next j hj
  rw [h] at hstep
  obtain ⟨p, v, hpc⟩ := Step.translateRet_inv hstep
  obtain ⟨m, hm, t, hrep, hsearch, hno⟩ := searches_run r hj.le (i := i) (by rw [hpc]; rfl)
  obtain ⟨a, hlast, hcall⟩ := r.exists_origin (C := Act.startsTranslate i)
    (I := fun s => (s.reader i).args = some (gpa, hva))
    (Q := fun _ _ b => b = .translateCall i gpa hva)
    (fun s hs hx => by rw [show s = start W from hs] at hx; cases hx)
    (fun s a s' hs hx => (Step.args_new hs hx).imp (fun ha => ⟨⟨_, _, ha⟩, ha⟩)
      fun ⟨hc, hx'⟩ => ⟨hc, hx', fun _ _ => id⟩) hj.le (by rw [hpc]; rfl)
  refine ⟨a, m, hlast, hcall, hlast.lt_moment hno, hm, ?_⟩
  rw [hpc] at hsearch
  rw [hsearch.2, lookup_refines hrep]
  rfl

/-- A call of `translate` hits whatever was translated by the map before the call
began. -/
theorem translate_hit {a j k : Nat} (hj : j < n) {i : Fin maxReaders} {gpa hva v : UInt64}
    {ans : Bool × UInt64} (h : r.act j = .translateRet i gpa hva ans)
    (hlast : r.Last (Act.startsTranslate i) a j) (hk : k ≤ a)
    (hv : (registered r k).translate gpa = some v) : ans = (true, v) := by
  obtain ⟨a', m, hlast', -, ham, -, rfl⟩ := translate_moment r hj h
  obtain rfl := hlast.unique hlast'
  rw [answer, MemoryMap.translate_mono (registered_mono r (hk.trans ham.le)) hv]

/-- `translate` is linearizable against the map of the published regions.  The
map grows at each publish by its region.  Each call answers as the map did at one
moment between its start and its return.  So a region whose call returned
`ADD_OK` before a call of `translate` began is seen by it, the table a reader
searches is a finished one, and an address once hit is hit with the same host
address by every call that starts later. -/
theorem translate_linearizable :
    (∀ k < n, ∀ w rgn old new, r.act k = .publish w rgn old new →
      (registered r k).add rgn = (.added, registered r (k + 1))) ∧
    (∀ k < n, (r.act k).published = none → registered r (k + 1) = registered r k) ∧
    (∀ j < n, ∀ i gpa hva ans, r.act j = .translateRet i gpa hva ans →
      ∃ a m, r.Last (Act.startsTranslate i) a j ∧ r.act a = .translateCall i gpa hva ∧ a < m ∧
        m ≤ j ∧ ans = answer (registered r m) gpa hva) ∧
    (∀ c < n, ∀ w rgn, r.act c = .addRet w rgn .addOk →
      ∀ j < n, ∀ a i gpa hva ans, r.act j = .translateRet i gpa hva ans →
        r.Last (Act.startsTranslate i) a j → c < a → gpa.toNat ∈ rgn.range →
        ans = (true, rgn.translate gpa)) ∧
    (∀ k ≤ n, ∀ i p, ((r.st k).reader i).holds = some p →
      ∃ m ≤ k, ∃ t, (r.st k).heap p = .live t ∧ t.Represents (registered r m)) ∧
    (∀ j < n, ∀ i gpa hva v, r.act j = .translateRet i gpa hva (true, v) →
      ∀ j' < n, ∀ a i' hva' ans, r.act j' = .translateRet i' gpa hva' ans →
        r.Last (Act.startsTranslate i') a j' → j < a → ans = (true, v)) := by
  refine ⟨fun k hk w rgn old new h => add_of_publish r hk h, fun k _ h => ?_,
    fun j hj i gpa hva ans h => translate_moment r hj h, fun c hc w rgn h => ?_,
    fun k hk i p hp => ?_, fun j hj i gpa hva v h => ?_⟩
  · rw [registered_succ, Act.after, h]
  · intro j hj a i gpa hva ans hret hlast hca hg
    have hmem := mem_registered_of_addOk r hc h
    exact translate_hit r hj hret hlast hca.le (MemoryMap.translate_of_mem _ hmem hg)
  · obtain ⟨m, hm, t, hrep, hsearch, -⟩ := searches_run r hk hp
    exact ⟨m, hm, t, hsearch.heap_eq hp, hrep⟩
  · intro j' hj' a i' hva' ans hret hlast hja
    obtain ⟨-, m, -, -, -, hm, hans⟩ := translate_moment r hj h
    -- The map of the moment of the first call had a translation.
    have hv : (registered r m).translate gpa = some v := by
      unfold answer at hans
      split at hans
      · rename_i hsome
        rw [hsome, (Prod.mk.inj hans).2]
      · cases (Prod.mk.inj hans).1
    exact translate_hit r hj' hret hlast (hm.trans hja.le) hv

end Runs

end Rcu
