import SystemsDrills.Rcu.Machine

/-!
# Who may hold which table

The invariant of the mini-RCU has three parts.

*Sections.*  A reader's sequence number is odd exactly between the store of
`read_begin` and the store of `read_end`.

*Ownership.*  Only the writer that holds the mutex has a table under
construction or a table to retire.  The current table is live and stores the
map of what was published; a table under construction is not the current one.

*Holding.*  A table that a reader holds is the current one, or a writer still
waits for that very reader before it frees the table.  This is where the order
of the accesses enters: a reader that loads `current` after the publish loads
the new table, and a reader that loaded it before has an odd number that the
writer will see.
-/

namespace Rcu

open Transition GuestMemory GuestMemory.Sorted

/-! ## Sections -/

theorem inSection_succ (v : UInt64) : inSection (v + 1) = !inSection v := by
  have hmod : ∀ v : UInt64, (inSection v = true ↔ v.toNat % 2 = 1) := by
    intro v
    rw [inSection, bne_iff_ne, ne_eq, ← UInt64.toNat_inj, UInt64.toNat_and]
    show ¬ v.toNat &&& 1 = 0 ↔ _
    rw [Nat.and_one_is_mod]
    omega
  rw [Bool.eq_iff_iff, hmod, Bool.not_eq_true', ← Bool.not_eq_true, hmod, UInt64.toNat_add]
  show (v.toNat + 1) % 2 ^ 64 % 2 = 1 ↔ _
  omega

/-- The table a reader has loaded and not yet given up. -/
def ReaderPc.holds : ReaderPc → Option Nat
  | .lookup t _ _ | .search t _ _ _ _ | .endLoad t _ _ _ | .endStore t _ _ _ _ => some t
  | _ => none

/-- A reader at this place has the sequence number `v`. -/
def ReaderPc.Fits (v : UInt64) : ReaderPc → Prop
  | .idle | .beginLoad _ _ => inSection v = false
  | .beginStore _ _ s => s = v ∧ inSection v = false
  | .endStore _ _ _ _ s => s = v ∧ inSection v = true
  | _ => inSection v = true

theorem ReaderPc.Fits.inSection_of_holds {v : UInt64} {pc : ReaderPc} {p : Nat} (h : pc.Fits v)
    (hp : pc.holds = some p) : inSection v = true := by
  cases pc with
  | idle | beginLoad | beginStore | loadCurrent => cases hp
  | lookup | search | endLoad => exact h
  | endStore => exact h.2

section

variable {W : Type}

def State.Sections (s : State W) : Prop := ∀ i, (s.reader i).Fits (s.seq i)

variable {s s' : State W}

/-- A reader moves and may store its sequence number. -/
theorem State.Sections.move (hs : s.Sections) {i : Fin maxReaders} {v : UInt64} {pc : ReaderPc}
    (hpc : pc.Fits v) : ((s.setSeq i v).gotoReader i pc).Sections := by
  refine (Function.forall_update_iff s.reader
    fun j pc => pc.Fits (Function.update s.seq i v j)).mpr ⟨?_, fun j hj => ?_⟩
  · rw [Function.update_self]
    exact hpc
  · rw [Function.update_of_ne hj]
    exact hs j

theorem State.Sections.goto (hs : s.Sections) {i : Fin maxReaders} {pc : ReaderPc}
    (hpc : pc.Fits (s.seq i)) : (s.gotoReader i pc).Sections :=
  (Function.forall_update_iff s.reader fun j pc => pc.Fits (s.seq j)).mpr ⟨hpc, fun j _ => hs j⟩

theorem State.Sections.step [DecidableEq W] {a : Act W} (hs : s.Sections) (h : Step s a s') :
    s'.Sections := by
  have hfits : ∀ {i pc}, s.reader i = pc → pc.Fits (s.seq i) := fun hpc => hpc ▸ hs _
  cases h with
  | translateCall hpc =>
      have hout := hfits hpc
      exact hs.goto hout
  | beginLoad hpc => exact hs.goto ⟨rfl, hfits hpc⟩
  | beginStore hpc =>
      obtain ⟨rfl, hout⟩ := hfits hpc
      refine hs.move ?_
      show inSection _ = true
      rw [inSection_succ, hout]
      rfl
  | loadCurrent hpc | readN hpc _ | searchRight hpc _ _ _ | searchLeft hpc _ _ _
  | searchEnd hpc _ _ =>
      have hin := hfits hpc
      exact hs.goto hin
  | endLoad hpc => exact hs.goto ⟨rfl, hfits hpc⟩
  | endStore hpc =>
      obtain ⟨rfl, hin⟩ := hfits hpc
      refine hs.move ?_
      show inSection _ = false
      rw [inSection_succ, hin]
      rfl
  | _ => exact hs

end

/-! ## Ownership -/

/-- Between `pthread_mutex_lock` and `pthread_mutex_unlock`. -/
def WriterPc.locked : WriterPc → Bool
  | .idle | .check _ | .lock _ => false
  | _ => true

/-- What a block holds before a stage. -/
def Stage.before (block old : RegionTable) (rgn : Region) (pos : Nat) : Stage → RegionTable
  | .low => block
  | .region => copyLow block old pos
  | .high => putRegion (copyLow block old pos) rgn pos
  | .count => copyHigh (putRegion (copyLow block old pos) rgn pos) old pos

/-- The current table `t` has passed the tests for `rgn`, and block `new`, which
is not the current one, holds `f block` for a block of the right size. -/
structure Building (cur : Nat) (heap : Nat → Cell) (rgn : Region) (new pos : Nat)
    (f : RegionTable → RegionTable → RegionTable) : Prop where
  valid : rgn.Valid
  new_ne : new ≠ cur
  stored : ∃ t block, heap cur = .live t ∧ findPos t rgn = .ok pos ∧
    block.r.length = t.n + 1 ∧ heap new = .live (f block t)

/-- What is known of the tables a writer at this place works on. -/
def WriterPc.Ok (cur : Nat) (heap : Nat → Cell) : WriterPc → Prop
  | .idle | .check _ | .unlock _ _ => True
  | .lock rgn | .load rgn => rgn.Valid
  | .scan rgn old => rgn.Valid ∧ old = cur
  | .alloc rgn old pos => rgn.Valid ∧ old = cur ∧ ∃ t, heap cur = .live t ∧ findPos t rgn = .ok pos
  | .fill rgn old new pos stage => old = cur ∧
      Building cur heap rgn new pos fun block t => stage.before block t rgn pos
  | .publish rgn old new => old = cur ∧
      ∃ pos, Building cur heap rgn new pos fun block t => build block t rgn pos
  | .wait _ old _ | .spin _ old _ _ | .free _ old => old ≠ cur ∧ ∃ t, heap old = .live t

/-- The region a step adds to the published set. -/
def Act.published {W : Type} : Act W → Option Region
  | .publish _ rgn _ _ => some rgn
  | _ => none

/-- The published map after a step. -/
noncomputable def Act.after {W : Type} (a : Act W) (m : MemoryMap) : MemoryMap :=
  match a.published with
  | some rgn => (m.add rgn).2
  | none => m

section

variable {W : Type} {s s' : State W} {m m' : MemoryMap}

/-- The writers' part of the invariant, when the map `m` is published. -/
structure State.Owned (s : State W) (m : MemoryMap) : Prop where
  exclusive : ∀ w, (s.writer w).locked → s.lock = some w
  cur : ∃ t, s.heap s.current = .live t ∧ t.Represents m
  ok : ∀ w, (s.writer w).Ok s.current s.heap

theorem State.Owned.unique (hs : s.Owned m) {w w' : W} (h : (s.writer w).locked)
    (h' : (s.writer w').locked) : w' = w :=
  Option.some.inj ((hs.exclusive w' h').symm.trans (hs.exclusive w h))

/-- Outside the lock a writer knows nothing of the tables. -/
theorem WriterPc.Ok.of_not_locked {cur cur' : Nat} {heap heap' : Nat → Cell} {pc : WriterPc}
    (h : pc.Ok cur heap) (hpc : pc.locked = false) : pc.Ok cur' heap' := by
  cases pc with
  | idle | check | lock => exact h
  | _ => cases hpc

theorem State.Reads.eq {p : Nat} {t t' : RegionTable} (h : s.Reads p t)
    (ht : s.heap p = .live t') : t = t' :=
  h t' ht

/-- Inside the lock a writer is alone. -/
theorem State.Owned.alone (hs : s.Owned m) {w : W} (h : (s.writer w).locked) {w' : W}
    (hne : w' ≠ w) : (s.writer w').locked = false := by
  cases hl : (s.writer w').locked with
  | false => rfl
  | true => exact absurd (hs.unique h hl) hne

variable [DecidableEq W]

/-- A writer moves and touches nothing. -/
theorem State.Owned.goto (hs : s.Owned m) {w : W} {pc : WriterPc}
    (hlock : pc.locked → (s.writer w).locked) (hok : pc.Ok s.current s.heap) :
    (s.gotoWriter w pc).Owned m where
  exclusive := (Function.forall_update_iff s.writer fun w' pc => pc.locked → s.lock = some w').mpr
    ⟨fun hl => hs.exclusive w (hlock hl), fun w' _ => hs.exclusive w'⟩
  cur := hs.cur
  ok := (Function.forall_update_iff s.writer fun _ pc => pc.Ok s.current s.heap).mpr
    ⟨hok, fun w' _ => hs.ok w'⟩

/-- A writer moves while no other writer is inside the lock. -/
theorem State.Owned.move (hs : s.Owned m) {w : W} {pc : WriterPc}
    (hw : s'.writer = Function.update s.writer w pc)
    (halone : ∀ w', w' ≠ w → (s.writer w').locked = false)
    (hlock : pc.locked → s'.lock = some w)
    (hcur : ∃ t, s'.heap s'.current = .live t ∧ t.Represents m')
    (hok : pc.Ok s'.current s'.heap) : s'.Owned m' := by
  refine ⟨?_, hcur, ?_⟩
  · rw [hw]
    refine (Function.forall_update_iff s.writer fun w' pc => pc.locked → s'.lock = some w').mpr
      ⟨hlock, fun w' hne hl => ?_⟩
    rw [halone w' hne] at hl
    cases hl
  · rw [hw]
    exact (Function.forall_update_iff s.writer fun _ pc => pc.Ok s'.current s'.heap).mpr
      ⟨hok, fun w' hne => (hs.ok w').of_not_locked (halone w' hne)⟩

/-- A new block holds anything of the right size. -/
theorem State.Owned.malloc (hs : s.Owned m) {w : W} {rgn : Region} {old new pos : Nat}
    {t block : RegionTable} (hpc : s.writer w = .alloc rgn old pos) (ht : s.Reads old t)
    (hnew : s.heap new = .fresh) (hlen : block.r.length = t.n + 1) :
    ((s.setHeap new (.live block)).gotoWriter w (.fill rgn old new pos .low)).Owned m := by
  have hok := hs.ok w
  rw [hpc] at hok
  obtain ⟨hv, rfl, t', ht', hpos⟩ := hok
  obtain rfl := ht.eq ht'
  have hne : s.current ≠ new := by
    intro h
    rw [h, hnew] at ht'
    cases ht'
  have hcur : Function.update s.heap new (.live block) s.current = s.heap s.current :=
    Function.update_of_ne hne _ _
  refine hs.move rfl (fun w' => hs.alone (by rw [hpc]; rfl)) (fun _ => hs.exclusive w (by rw [hpc]; rfl))
    ?_ ⟨rfl, hv, hne.symm, t, block, hcur.trans ht', hpos, hlen, Function.update_self ..⟩
  obtain ⟨t0, ht0, hrep⟩ := hs.cur
  exact ⟨t0, hcur.trans ht0, hrep⟩

/-- A stage writes into the block and nowhere else. -/
theorem State.Owned.fill (hs : s.Owned m) {w : W} {rgn : Region} {old new pos : Nat}
    {stage : Stage} {t block : RegionTable} (hpc : s.writer w = .fill rgn old new pos stage)
    (ht : s.Reads old t) (hb : s.Reads new block) :
    ((s.setHeap new (.live (stage.fill block t rgn pos))).gotoWriter w
      (stage.after rgn old new pos)).Owned m := by
  have hok := hs.ok w
  rw [hpc] at hok
  obtain ⟨rfl, hv, hne, t', block', ht', hpos, hlen, hnew⟩ := hok
  obtain rfl := ht.eq ht'
  obtain rfl := hb.eq hnew
  have hcur : ∀ c, Function.update s.heap new c s.current = s.heap s.current := fun c =>
    Function.update_of_ne hne.symm _ _
  have hnext : ∀ f : RegionTable → RegionTable → RegionTable,
      stage.fill (stage.before block' t rgn pos) t rgn pos = f block' t →
      Building s.current (Function.update s.heap new
        (.live (stage.fill (stage.before block' t rgn pos) t rgn pos))) rgn new pos f := fun f hf =>
    ⟨hv, hne, t, block', (hcur _).trans ht', hpos, hlen, by rw [Function.update_self, hf]⟩
  refine hs.move rfl (fun w' => hs.alone (by rw [hpc]; rfl))
    (fun _ => hs.exclusive w (by rw [hpc]; rfl)) ?_ ?_
  · obtain ⟨t0, ht0, hrep⟩ := hs.cur
    exact ⟨t0, (hcur _).trans ht0, hrep⟩
  · cases stage with
    | low => exact ⟨rfl, hnext _ rfl⟩
    | region => exact ⟨rfl, hnext _ rfl⟩
    | high => exact ⟨rfl, hnext _ rfl⟩
    | count => exact ⟨rfl, pos, hnext _ rfl⟩

/-- The table that is published stores the map with the region added. -/
theorem State.Owned.publish (hs : s.Owned m) {w : W} {rgn : Region} {old new : Nat}
    (hpc : s.writer w = .publish rgn old new) :
    (m.add rgn).1 = .added ∧
      ((s.setCurrent new).gotoWriter w (.wait rgn old 0)).Owned (m.add rgn).2 := by
  have hok := hs.ok w
  rw [hpc] at hok
  obtain ⟨rfl, pos, hv, hne, t, block, ht, hpos, hlen, hnew⟩ := hok
  obtain ⟨t', ht', hrep⟩ := hs.cur
  obtain rfl : t = t' := by
    rw [ht] at ht'
    exact Cell.live.inj ht'
  obtain ⟨hn, hno, rfl⟩ := (findPos_eq_ok_iff hrep.wf hv).mp hpos
  obtain ⟨hadd, hbuilt⟩ := build_represents hrep hv hn hno hlen
  exact ⟨hadd, hs.move rfl (fun w' => hs.alone (by rw [hpc]; rfl))
    (fun _ => hs.exclusive w (by rw [hpc]; rfl)) ⟨_, hnew, hbuilt⟩ ⟨hne.symm, t, ht⟩⟩

/-- The table that is freed is not the current one. -/
theorem State.Owned.free (hs : s.Owned m) {w : W} {rgn : Region} {old : Nat}
    (hpc : s.writer w = .free rgn old) :
    ((s.setHeap old .freed).gotoWriter w (.unlock rgn .addOk)).Owned m := by
  have hok := hs.ok w
  rw [hpc] at hok
  refine hs.move rfl (fun w' => hs.alone (by rw [hpc]; rfl))
    (fun _ => hs.exclusive w (by rw [hpc]; rfl)) ?_ trivial
  obtain ⟨t, ht, hrep⟩ := hs.cur
  exact ⟨t, (Function.update_of_ne hok.1.symm _ _).trans ht, hrep⟩

theorem State.Owned.step {a : Act W} (hs : s.Owned m) (h : Step s a s') : s'.Owned (a.after m) := by
  have hok : ∀ {w pc}, s.writer w = pc → pc.Ok s.current s.heap := fun hpc => hpc ▸ hs.ok _
  have hin : ∀ {w pc}, s.writer w = pc → pc.locked → (s.writer w).locked := fun hpc hl => hpc ▸ hl
  cases h with
  | addCall hpc => exact hs.goto nofun trivial
  | checkFail hpc _ => exact hs.goto nofun trivial
  | checkOk hpc hc => exact hs.goto nofun (checkArgs_eq_none_iff.mp hc)
  | lock hpc hl =>
      have hv := hok hpc
      refine hs.move rfl (fun w' _ => ?_) (fun _ => rfl) hs.cur hv
      cases hw : (s.writer w').locked with
      | false => rfl
      | true =>
          have := hs.exclusive w' hw
          rw [hl] at this
          cases this
  | load hpc => exact hs.goto (fun _ => hin hpc rfl) ⟨hok hpc, rfl⟩
  | scanFail hpc _ _ => exact hs.goto (fun _ => hin hpc rfl) trivial
  | scanOk hpc ht hpos =>
      obtain ⟨hv, rfl⟩ := hok hpc
      obtain ⟨t', ht', -⟩ := hs.cur
      exact hs.goto (fun _ => hin hpc rfl) ⟨hv, rfl, t', ht', ht.eq ht' ▸ hpos⟩
  | nomem hpc => exact hs.goto (fun _ => hin hpc rfl) trivial
  | malloc hpc ht hnew hlen => exact hs.malloc hpc ht hnew hlen
  | fill hpc ht hb => exact hs.fill hpc ht hb
  | publish hpc => exact (hs.publish hpc).2
  | waitOut hpc _ | waitIn hpc _ | spinEnd hpc _ | waitEnd hpc =>
      have hold := hok hpc
      exact hs.goto (fun _ => hin hpc rfl) hold
  | free hpc => exact hs.free hpc
  | unlock hpc =>
      exact hs.move rfl (fun w' => hs.alone (hin hpc rfl)) nofun hs.cur trivial
  | _ => exact ⟨hs.exclusive, hs.cur, hs.ok⟩

end

/-! ## Holding -/

/-- A writer at this place still waits for reader `i`, whose sequence number is
`v`, before it frees block `p`. -/
def WriterPc.Awaits (p : Nat) (i : Fin maxReaders) (v : UInt64) : WriterPc → Prop
  | .wait _ old k => old = p ∧ k ≤ i
  | .spin _ old k s => old = p ∧ (k < i ∨ k = i ∧ v = s)
  | _ => False

section

variable {W : Type} {s s' : State W} {m : MemoryMap}

/-- The readers' part of the invariant. -/
def State.Held (s : State W) : Prop :=
  ∀ i p, (s.reader i).holds = some p →
    p = s.current ∨ ∃ w, (s.writer w).Awaits p i (s.seq i)

theorem WriterPc.Awaits.locked {pc : WriterPc} {p : Nat} {i : Fin maxReaders} {v : UInt64}
    (h : pc.Awaits p i v) : pc.locked := by
  cases pc with
  | wait | spin => rfl
  | _ => exact h.elim

variable [DecidableEq W]

/-- A writer that moves keeps the readers safe if each table it waited for is
still waited for, and so is the current one if it is replaced. -/
theorem State.Held.move (hs : s.Held) {w : W} {pc : WriterPc} (hr : s'.reader = s.reader)
    (hq : s'.seq = s.seq) (hw : s'.writer = Function.update s.writer w pc)
    (hcur : ∀ i, s.current = s'.current ∨ pc.Awaits s.current i (s.seq i))
    (hawaits : ∀ i p, (s.reader i).holds = some p → (s.writer w).Awaits p i (s.seq i) →
      pc.Awaits p i (s.seq i)) : s'.Held := by
  intro i p hp
  rw [hr] at hp
  rw [hw, hq]
  have hself : pc.Awaits p i (s.seq i) →
      ∃ w', (Function.update s.writer w pc w').Awaits p i (s.seq i) := fun h =>
    ⟨w, by rwa [Function.update_self]⟩
  rcases hs i p hp with rfl | ⟨w', hw'⟩
  · exact (hcur i).imp_right hself
  · by_cases hww : w' = w
    · subst hww
      exact .inr (hself (hawaits i p hp hw'))
    · exact .inr ⟨w', by rwa [Function.update_of_ne hww]⟩

/-- A writer that waits for nobody moves. -/
theorem State.Held.goto (hs : s.Held) {w : W} {pc : WriterPc} (hr : s'.reader = s.reader)
    (hq : s'.seq = s.seq) (hw : s'.writer = Function.update s.writer w pc)
    (hcur : s'.current = s.current) (hno : ∀ p i v, ¬ (s.writer w).Awaits p i v) : s'.Held :=
  hs.move hr hq hw (fun _ => .inl hcur.symm) fun _ _ _ h => absurd h (hno _ _ _)

omit [DecidableEq W] in
/-- A reader moves and holds what it held, or the current table. -/
theorem State.Held.gotoReader (hs : s.Held) {i : Fin maxReaders} {pc : ReaderPc}
    (h : ∀ p, pc.holds = some p → (s.reader i).holds = some p ∨ p = s.current) :
    (s.gotoReader i pc).Held := by
  refine (Function.forall_update_iff s.reader fun j pc => ∀ p, pc.holds = some p →
    p = s.current ∨ ∃ w, (s.writer w).Awaits p j (s.seq j)).mpr ⟨fun p hp => ?_, fun j _ => hs j⟩
  rcases h p hp with hp' | hp'
  · exact hs i p hp'
  · exact .inl hp'

omit [DecidableEq W] in
/-- A reader that holds nothing stores its sequence number. -/
theorem State.Held.storeSeq (hs : s.Held) {i : Fin maxReaders} {v : UInt64} {pc : ReaderPc}
    (h : pc.holds = none) : ((s.setSeq i v).gotoReader i pc).Held := by
  refine (Function.forall_update_iff s.reader fun j pc => ∀ p, pc.holds = some p →
    p = s.current ∨ ∃ w, (s.writer w).Awaits p j (Function.update s.seq i v j)).mpr
      ⟨fun p hp => ?_, fun j hj => ?_⟩
  · rw [h] at hp
    cases hp
  · rw [Function.update_of_ne hj]
    exact hs j

theorem State.Held.step {a : Act W} (hs : s.Held) (hsec : s.Sections) (hown : s.Owned m)
    (h : Step s a s') : s'.Held := by
  have hno : ∀ {w pc}, s.writer w = pc → (∀ p i v, ¬ pc.Awaits p i v) →
      ∀ p i v, ¬ (s.writer w).Awaits p i v := fun hpc hn => hpc ▸ hn
  have hholds : ∀ {i pc}, s.reader i = pc → (s.reader i).holds = pc.holds := fun hpc => hpc ▸ rfl
  cases h with
  | translateCall hpc | beginLoad hpc => exact hs.gotoReader nofun
  | beginStore hpc => exact hs.storeSeq rfl
  | loadCurrent hpc => exact hs.gotoReader fun p hp => .inr (Option.some.inj hp).symm
  | readN hpc _ | searchRight hpc _ _ _ | searchLeft hpc _ _ _ | searchEnd hpc _ _ | endLoad hpc =>
      exact hs.gotoReader fun p hp => .inl ((hholds hpc).trans hp)
  | endStore hpc => exact hs.storeSeq rfl
  | addCall hpc | checkFail hpc _ | checkOk hpc _ | lock hpc _ | load hpc | scanFail hpc _ _
  | scanOk hpc _ _ | nomem hpc | malloc hpc _ _ _ | fill hpc _ _ | free hpc | unlock hpc =>
      exact hs.goto rfl rfl rfl rfl (hno hpc fun _ _ _ => id)
  | @publish _ w rgn old new hpc =>
      -- Every reader may hold the table that is replaced, and all are waited for.
      have hok := hown.ok w
      rw [hpc] at hok
      refine hs.move rfl rfl rfl (fun i => .inr ⟨hok.1, Nat.zero_le _⟩) fun i p _ hw => ?_
      rw [hpc] at hw
      exact hw.elim
  | @waitOut _ w rgn old k hpc hout =>
      refine hs.move rfl rfl rfl (fun i => .inl rfl) fun i p hp hw => ?_
      rw [hpc] at hw
      obtain ⟨rfl, hki⟩ := hw
      -- Reader `k` is outside, so it holds nothing.
      have hne : k ≠ i := by
        rintro rfl
        rw [(hsec k).inSection_of_holds hp] at hout
        cases hout
      exact ⟨rfl, Nat.lt_of_le_of_ne hki fun he => hne (Fin.ext he)⟩
  | @waitIn _ w rgn old k hpc _ =>
      refine hs.move rfl rfl rfl (fun i => .inl rfl) fun i p _ hw => ?_
      rw [hpc] at hw
      obtain ⟨rfl, hki⟩ := hw
      refine ⟨rfl, ?_⟩
      rcases Nat.lt_or_eq_of_le hki with hlt | heq
      · exact .inl hlt
      · obtain rfl := Fin.ext heq
        exact .inr ⟨rfl, rfl⟩
  | spinAgain => exact hs
  | @spinEnd v _ w rgn old k hpc hne =>
      refine hs.move rfl rfl rfl (fun i => .inl rfl) fun i p _ hw => ?_
      rw [hpc] at hw
      obtain ⟨rfl, hki | ⟨rfl, hv⟩⟩ := hw
      · exact ⟨rfl, hki⟩
      · exact absurd hv hne
  | @waitEnd _ w rgn old hpc =>
      refine hs.move rfl rfl rfl (fun i => .inl rfl) fun i p _ hw => ?_
      rw [hpc] at hw
      exact absurd hw.2 (by have := i.isLt; omega)

end

/-! ## The whole invariant -/

section

variable {W : Type} {s s' : State W} {m : MemoryMap}

/-- The invariant of the machine, when the map `m` is published. -/
structure State.Inv (s : State W) (m : MemoryMap) : Prop where
  sections : s.Sections
  owned : s.Owned m
  held : s.Held

theorem inv_start : (start W).Inv .empty where
  sections _ := show inSection 0 = false by decide
  owned := ⟨nofun, ⟨.empty, rfl, empty_represents⟩, fun _ => trivial⟩
  held := nofun

theorem State.Inv.step [DecidableEq W] {a : Act W} (hs : s.Inv m) (h : Step s a s') :
    s'.Inv (a.after m) :=
  ⟨hs.sections.step h, hs.owned.step h, hs.held.step hs.sections hs.owned h⟩

theorem inv_invariant [DecidableEq W] : (machine W).Invariant fun s => ∃ m, s.Inv m where
  start := by
    rintro s rfl
    exact ⟨.empty, inv_start⟩
  next _ _ _ _ := fun ⟨_, hs⟩ h => ⟨_, hs.step h⟩

end

end Rcu
