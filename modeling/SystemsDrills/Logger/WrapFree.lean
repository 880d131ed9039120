import SystemsDrills.Logger.Seqlock

/-!
# Runs that do not wrap

As long as at most `LOG_SLOTS` tickets are drawn, which is what `main` sees to,
every ticket has a slot of its own.  The sequence number of a slot then goes
from 0 to the writing and to the committed number of its ticket and stays there,
so a read succeeds exactly when the ticket was committed before its first load.
-/

namespace Logger

open Transition

variable {W R : Type}

section

variable {log : LogBuffer} {writer : W → WriterPc} {ds : List (UInt64 × Entry)}

/-- Tickets below `LOG_SLOTS` have slots of their own. -/
theorem eq_of_slotOf_eq {t u : UInt64} (ht : t.toNat < logSlots) (hu : u.toNat < logSlots)
    (h : slotOf t = slotOf u) : t = u := by
  rw [slotOf_eq_iff, Nat.mod_eq_of_lt ht, Nat.mod_eq_of_lt hu] at h
  exact UInt64.toNat_inj.mp h

theorem Writing.lt_logSlots (hs : Writing log writer ds) (hlen : ds.length ≤ logSlots) {w : W}
    {t : UInt64} {e : Entry} (h : (writer w).holds = some (t, e)) : t.toNat < logSlots :=
  (List.getElem?_eq_some_iff.mp (hs.drawn w t e h)).1.trans_le hlen

/-- A call that marks its slot is alone in it. -/
theorem Writing.clear (hs : Writing log writer ds) (hlen : ds.length ≤ logSlots) {w w' : W}
    {t t' : UInt64} {e e' : Entry} {done : Finset (Fin entryBytes)} (hpc : writer w = .mark t e)
    (hpc' : writer w' = .copy t' e' done) (hne : w' ≠ w) : slotOf t' ≠ slotOf t := by
  intro hslot
  have hheld : (writer w).holds = some (t, e) := by rw [hpc]; rfl
  have heq := eq_of_slotOf_eq (hs.lt_logSlots hlen (holds_copy hpc')) (hs.lt_logSlots hlen hheld) hslot
  exact hne (hs.distinct w' w t e' e (heq ▸ holds_copy hpc') hheld)

end

variable [DecidableEq W] [DecidableEq R]

/-- A slot stays committed. -/
theorem Step.committed_kept {s s' : State W R} {a : Act W R} {ds : List (UInt64 × Entry)}
    {t : UInt64} (h : Step s a s') (hs : Writing s.log s.writer ds) (hlen : ds.length ≤ logSlots)
    (ht : t.toNat < logSlots) (hc : s.log.seq (slotOf t) = committed t) :
    s'.log.seq (slotOf t) = committed t := by
  -- A call that stores into the slot of `t` holds `t`, which is then not committed.
  have hother : ∀ w u e, (s.writer w).holds = some (u, e) → slotOf t ≠ slotOf u := by
    intro w u e hheld hslot
    obtain rfl := eq_of_slotOf_eq ht (hs.lt_logSlots hlen hheld) hslot
    exact hs.pending w t e hheld _ hc
  cases h with
  | @mark _ w u e hpc => simpa [hother w u e (by rw [hpc]; rfl)] using hc
  | @commit _ w u e hpc => simpa [hother w u e (holds_copy hpc)] using hc
  | _ => exact hc

/-- A slot becomes committed only by the commit of its ticket. -/
theorem Step.committed_new {s s' : State W R} {a : Act W R} {ds : List (UInt64 × Entry)}
    {t : UInt64} (h : Step s a s') (hs : Writing s.log s.writer ds) (hd : ds.length < 2 ^ 62)
    (ht : t.toNat < 2 ^ 62) (hc : s'.log.seq (slotOf t) = committed t) :
    s.log.seq (slotOf t) = committed t ∨ ∃ w, a = .commit w t := by
  cases h with
  | @mark _ w u e hpc =>
      by_cases hslot : slotOf t = slotOf u
      · have hu := lt_of_drawn hd (hs.drawn w u e (by rw [hpc]; rfl))
        exact absurd (hc ▸ by simp [hslot]) (writing_ne_committed hu ht)
      · exact .inl (by simpa [hslot] using hc)
  | @commit _ w u e hpc =>
      by_cases hslot : slotOf t = slotOf u
      · have hu := lt_of_drawn hd (hs.drawn w u e (holds_copy hpc))
        have hut : u = t := committed_inj hu ht (hc ▸ by simp [hslot])
        exact .inr ⟨w, by rw [hut]⟩
      · exact .inl (by simpa [hslot] using hc)
  | _ => exact .inl hc

/-! ## The invariant -/

/-- A reader that has seen its slot committed reads a slot that is committed for
good. -/
def ReaderPc.Steady (log : LogBuffer) : ReaderPc → Prop
  | .test1 t v _ => t.toNat < logSlots → v = committed t → log.seq (slotOf t) = committed t
  | .copy t _ _ => t.toNat < logSlots → log.seq (slotOf t) = committed t
  | .test2 t v _ => t.toNat < logSlots → v = committed t
  | _ => True

/-- The state after the draws `ds`, at most `LOG_SLOTS` of them. -/
structure State.WrapFree (s : State W R) (ds : List (UInt64 × Entry)) : Prop where
  sound : s.Sound ds
  /-- A ticket that was drawn is held or committed. -/
  accounted : ∀ t e, ds[t.toNat]? = some (t, e) →
    (∃ w, (s.writer w).holds = some (t, e)) ∨ s.log.seq (slotOf t) = committed t
  steady : ∀ rd, (s.reader rd).Steady s.log

/-- What was held is held or committed after a step. -/
theorem Step.holds_or_committed {s s' : State W R} {a : Act W R} {w : W} {t : UInt64} {e : Entry}
    (h : Step s a s') (hheld : (s.writer w).holds = some (t, e)) :
    (s'.writer w).holds = some (t, e) ∨ s'.log.seq (slotOf t) = committed t := by
  cases h with
  | @writeCall _ v _ hpc | @draw _ v _ hpc =>
      have hw : w ≠ v := by rintro rfl; rw [hpc] at hheld; cases hheld
      exact .inl (by simpa [hw] using hheld)
  | mark hpc | writeCopy hpc _ =>
      left
      rw [State.gotoWriter_writer, holds_update_same _ (by simp only [State.setLog_writer, hpc]; rfl)]
      exact hheld
  | @commit _ v u e' hpc =>
      by_cases hw : w = v
      · rw [hw, hpc] at hheld
        obtain ⟨rfl, rfl⟩ := Prod.mk.inj (Option.some.inj hheld)
        exact .inr (by simp)
      · exact .inl (by simpa [hw] using hheld)
  | _ => exact .inl hheld

/-- What was just drawn is held. -/
theorem Step.holds_of_drawn {s s' : State W R} {a : Act W R} {d : UInt64 × Entry}
    (h : Step s a s') (hd : a.drawn = some d) : ∃ w, (s'.writer w).holds = some d := by
  cases h with
  | @draw _ w e hpc =>
      refine ⟨w, ?_⟩
      rw [State.gotoWriter_self, ← hd]
      rfl
  | _ => cases hd

theorem State.WrapFree.step {s s' : State W R} {a : Act W R} {ds : List (UInt64 × Entry)}
    (hs : s.WrapFree ds) (h : Step s a s') (hlen : (ds ++ a.drawn.toList).length ≤ logSlots) :
    s'.WrapFree (ds ++ a.drawn.toList) := by
  have hlen' : ds.length ≤ logSlots := by
    rw [List.length_append] at hlen
    omega
  have hw := hs.sound.writing
  have hkept : ∀ {t}, t.toNat < logSlots → s.log.seq (slotOf t) = committed t →
      s'.log.seq (slotOf t) = committed t := fun ht hc => h.committed_kept hw hlen' ht hc
  refine ⟨hs.sound.step h (hlen.trans_lt (by decide)) ?_, ?_, ?_⟩
  · rintro w t rfl
    cases h with
    | mark hpc => exact fun w' t' e' done hne hpc' => hw.clear hlen' hpc hpc' hne
  · intro t e ht
    rcases Nat.lt_or_ge t.toNat ds.length with hlt | hge
    · rw [List.getElem?_append_left hlt] at ht
      rcases hs.accounted t e ht with ⟨w, hheld⟩ | hc
      · exact (h.holds_or_committed hheld).imp_left fun hheld' => ⟨w, hheld'⟩
      · exact .inr (hkept (hlt.trans_le hlen') hc)
    · rw [List.getElem?_append_right hge] at ht
      refine .inl (h.holds_of_drawn ?_)
      have hmem := List.mem_of_getElem? ht
      simpa using hmem
  · -- The readers that do not move keep what they have; a reader that moves has just tested.
    have hrest : ∀ rd, (s.reader rd).Steady s'.log := by
      intro rd
      have hst := hs.steady rd
      cases hpc : s.reader rd with
      | test1 t v out => rw [hpc] at hst; exact fun ht hv => hkept ht (hst ht hv)
      | copy t out done => rw [hpc] at hst; exact fun ht => hkept ht (hst ht)
      | test2 t v out => rw [hpc] at hst; exact hst
      | _ => trivial
    have hmove : ∀ {rd p}, (p : ReaderPc).Steady s.log →
        ∀ rd', (Function.update s.reader rd p rd').Steady s.log := fun hp =>
      (Function.forall_update_iff s.reader fun _ pc => pc.Steady s.log).mpr
        ⟨hp, fun rd' _ => hs.steady rd'⟩
    cases h with
    | writeCall _ | draw _ | mark _ | writeCopy _ _ | commit _ => exact hrest
    | firstLoad hpc => exact hmove fun _ hv => hv
    | @readStart v t _ rd out hpc hv =>
        have hst := hs.steady rd
        rw [hpc] at hst
        exact hmove fun ht => hst ht hv
    | @readCopy done i _ rd t out hpc hi =>
        have hst := hs.steady rd
        rw [hpc] at hst
        exact hmove hst
    | @secondLoad _ rd t out hpc =>
        have hst := hs.steady rd
        rw [hpc] at hst
        exact hmove hst
    | _ => exact hmove trivial

/-! ## The first load -/

/-- Past the first load of `log_read`. -/
def ReaderPc.loaded : ReaderPc → Prop
  | .test1 _ _ _ | .copy _ _ _ | .test2 _ _ _ => True
  | _ => False

/-- The first load was made on `log`. -/
def ReaderPc.Saw (log : LogBuffer) : ReaderPc → Prop
  | .test1 t v _ => v = log.seq (slotOf t)
  | .copy t _ _ | .test2 t _ _ => log.seq (slotOf t) = committed t
  | _ => True

theorem Step.saw {s s' : State W R} {a : Act W R} {rd : R} (h : Step s a s')
    (hl : (s'.reader rd).loaded) :
    a = .firstLoad rd ∧ (s'.reader rd).Saw s.log ∨
    a ≠ .firstLoad rd ∧ (s.reader rd).loaded ∧
      ∀ u : State W R, (s.reader rd).Saw u.log → (s'.reader rd).Saw u.log := by
  -- The step of another reader leaves this one where it is.
  have hother : ∀ {rd' p}, rd ≠ rd' → (s.gotoReader rd' p).reader rd = s.reader rd := by
    intro rd' p hne
    simp [hne]
  cases h with
  | writeCall _ | draw _ | mark _ | writeCopy _ _ | commit _ => exact .inr ⟨nofun, hl, fun _ => id⟩
  | @firstLoad _ rd' t out hpc =>
      by_cases hne : rd = rd'
      · subst hne
        exact .inl ⟨rfl, by rw [State.gotoReader_self]; rfl⟩
      · rw [hother hne] at hl ⊢
        exact .inr ⟨fun h => hne (Act.firstLoad.inj h).symm, hl, fun _ => id⟩
  | @readCall _ rd' _ _ hpc | @readMiss _ _ _ rd' _ hpc _ | @readLapped _ _ _ rd' _ hpc _
  | @readOk _ _ _ rd' _ hpc _ =>
      by_cases hne : rd = rd'
      · subst hne
        rw [State.gotoReader_self] at hl
        exact hl.elim
      · rw [hother hne] at hl ⊢
        exact .inr ⟨nofun, hl, fun _ => id⟩
  | @readStart v t _ rd' out hpc hv =>
      by_cases hne : rd = rd'
      · subst hne
        rw [State.gotoReader_self, hpc]
        exact .inr ⟨nofun, trivial, fun u hu => hu.symm.trans hv⟩
      · rw [hother hne] at hl ⊢
        exact .inr ⟨nofun, hl, fun _ => id⟩
  | @readCopy _ _ _ rd' t out hpc _ | @secondLoad _ rd' t out hpc =>
      by_cases hne : rd = rd'
      · subst hne
        rw [State.gotoReader_self, hpc]
        exact .inr ⟨nofun, trivial, fun _ => id⟩
      · rw [hother hne] at hl ⊢
        exact .inr ⟨nofun, hl, fun _ => id⟩

/-! ## Whole runs -/

section Runs

variable {n : Nat} (r : Run (machine W R) n) (hlen : (draws r n).length ≤ logSlots)

include hlen

theorem wrapFree_run {k : Nat} (hk : k ≤ n) : (r.st k).WrapFree (draws r k) := by
  refine r.induct_from (P := fun k => (r.st k).WrapFree (draws r k)) ?_ ?_ (Nat.zero_le k) hk
  · rw [show r.st 0 = start W R from r.start]
    exact ⟨sound_start, nofun, fun _ => trivial⟩
  · intro k _ hk h ih
    rw [draws_succ]
    refine ih.step h ?_
    rw [← draws_succ]
    exact (length_draws_le r hk).trans hlen

theorem clear_run : ∀ k < n, ∀ w t, r.act k = .mark w t → (r.st k).Clear w t := by
  intro k hk w t ha w' t' e' done hne hpc'
  have hw := (wrapFree_run r hlen hk.le).sound.writing
  have h := r.next k hk
  rw [ha] at h
  generalize r.st (k + 1) = s' at h
  cases h with
  | mark hpc => exact hw.clear ((length_draws_le r hk.le).trans hlen) hpc hpc' hne

/-- A slot is committed exactly from the final store of its ticket's call on. -/
theorem committed_iff {t : UInt64} (ht : t.toNat < logSlots) {k : Nat} (hk : k ≤ n) :
    (r.st k).log.seq (slotOf t) = committed t ↔ ∃ c < k, ∃ w, r.act c = .commit w t := by
  have ht' : t.toNat < 2 ^ 62 := ht.trans (by decide)
  induction k with
  | zero =>
      rw [show r.st 0 = start W R from r.start]
      exact ⟨fun hc => absurd hc.symm (committed_ne_zero ht'), fun ⟨c, hc, _⟩ => absurd hc (by omega)⟩
  | succ k ih =>
      have hw := (wrapFree_run r hlen (k := k) (by omega)).sound.writing
      have hlen' := (length_draws_le r (k := k) (by omega)).trans hlen
      have h := r.next k hk
      refine ⟨fun hc => ?_, fun ⟨c, hc, w, hcommit⟩ => ?_⟩
      · rcases Step.committed_new h hw (hlen'.trans_lt (by decide)) ht' hc with hc | ⟨w, ha⟩
        · obtain ⟨c, hc, hcommit⟩ := (ih (by omega)).mp hc
          exact ⟨c, by omega, hcommit⟩
        · exact ⟨k, by omega, w, ha⟩
      · rcases Nat.lt_succ_iff_lt_or_eq.mp hc with hc | rfl
        · exact Step.committed_kept h hw hlen' ht ((ih (by omega)).mpr ⟨c, hc, w, hcommit⟩)
        · rw [hcommit] at h
          generalize r.st (c + 1) = s' at h ⊢
          cases h with
          | commit hpc => simp

/-- A return of `log_read(t)` and the first load of its call. -/
theorem ret_iff_committed {j : Nat} (hj : j < n) {rd : R} {t : UInt64} {res : Int} {out : Entry}
    (hret : r.act j = .ret rd t res out) (ht : t.toNat < logSlots) :
    ∃ i, r.Last (· = .firstLoad rd) i j ∧
      (res = 0 ↔ ∃ c < i, ∃ w, r.act c = .commit w t) := by
  have hstep := r.next j hj
  rw [hret] at hstep
  have hload := r.exists_origin (C := (· = .firstLoad rd)) (I := fun s => (s.reader rd).loaded)
    (Q := fun s u _ => (s.reader rd).Saw u.log)
    (fun s hs hl => by rw [show s = start W R from hs] at hl; exact hl)
    (fun s a s' h hl => (Step.saw h hl).imp_right fun ⟨hne, hl', hkeep⟩ =>
      ⟨hne, hl', fun u _ => hkeep u⟩) hj.le
  rcases Step.ret_cases hstep with ⟨v, hpc, hv, hres⟩ | ⟨v, hpc, hv, -⟩ | ⟨hpc, hres⟩
  · obtain ⟨i, hlast, hsaw⟩ := hload (by rw [hpc]; trivial)
    rw [hpc] at hsaw
    refine ⟨i, hlast, ?_⟩
    rw [← committed_iff r hlen ht (hlast.lt.le.trans hj.le), ← show v = _ from hsaw]
    simp [hv, hres]
  · -- A slot that was committed at the first load is committed at the second.
    have hst := (wrapFree_run r hlen hj.le).steady rd
    rw [hpc] at hst
    exact absurd (hst ht) hv
  · obtain ⟨i, hlast, hsaw⟩ := hload (by rw [hpc]; trivial)
    rw [hpc] at hsaw
    refine ⟨i, hlast, ?_⟩
    rw [← committed_iff r hlen ht (hlast.lt.le.trans hj.le), show _ = _ from hsaw]
    simp [hres]

omit hlen in
/-- A call that commits ticket `t` has drawn it. -/
theorem draw_of_commit {c : Nat} (hc : c < n) {w : W} {t : UInt64}
    (hcommit : r.act c = .commit w t) : ∃ e, ∃ d < c, r.act d = .draw w t e := by
  have h := r.next c hc
  rw [hcommit] at h
  generalize r.st (c + 1) = s' at h
  cases h with
  | commit hpc => exact ⟨_, draw_of_holds r hc.le (holds_copy hpc)⟩

/-- Once all writers are idle, every ticket drawn is committed, and its entry is
in its slot. -/
theorem committed_of_idle {k : Nat} (hk : k ≤ n) (hidle : ∀ w, (r.st k).writer w = .idle)
    {t : UInt64} (ht : t < (r.st k).log.head) :
    t.toNat < logSlots ∧ (r.st k).log.seq (slotOf t) = committed t ∧
      (t, (r.st k).log.entry (slotOf t)) ∈ draws r k := by
  have hlenk := (length_draws_le r hk).trans hlen
  have hfree := wrapFree_run r hlen hk
  have htk : t.toNat < (draws r k).length := by
    have := UInt64.lt_iff_toNat_lt.mp ht
    rw [head_run r hk, UInt64.toNat_ofNat'] at this
    omega
  obtain ⟨⟨u, e⟩, hget⟩ : ∃ d, (draws r k)[t.toNat]? = some d := ⟨_, List.getElem?_eq_getElem htk⟩
  have hu : u.toNat = t.toNat := by
    have := congrArg (·[t.toNat]?) (tickets_run r (hlen.trans_lt (by decide)) hk)
    simpa [hget, List.getElem?_range htk] using this
  obtain rfl := UInt64.toNat_inj.mp hu
  have hslot : u.toNat < logSlots := htk.trans_le hlenk
  rcases hfree.accounted u e hget with ⟨w, hheld⟩ | hc
  · rw [hidle w] at hheld
    cases hheld
  · exact ⟨hslot, hc, List.mem_of_getElem? (hfree.sound.writing.kept u (hslot.trans (by decide)) hc)⟩

/-- In a run that draws at most `LOG_SLOTS` tickets these are `0 .. head - 1`,
each drawn once.  `log_read(t)` returns 0 exactly when the call that drew `t`
had made its final store before the first load of the read, and then `*out` is
the entry of that call.  Once all writers are idle, every read of a ticket below
`head` succeeds, and such a read can run to its end. -/
theorem commit_visible :
    (∀ k ≤ n, (draws r k).map (fun d => d.1.toNat) = List.range (r.st k).log.head.toNat) ∧
    (∀ j < n, ∀ rd t res out, r.act j = .ret rd t res out → t.toNat < logSlots →
      ∃ i, r.Last (· = .firstLoad rd) i j ∧
        (res = 0 ↔ ∃ c < i, ∃ w, r.act c = .commit w t) ∧
        (res = 0 → ∃ c < i, ∃ w, r.act c = .commit w t ∧ ∃ d < c, r.act d = .draw w t out)) ∧
    (∀ k ≤ n, (∀ w, (r.st k).writer w = .idle) → ∀ t, t < (r.st k).log.head →
      (∀ j < n, ∀ i rd res out, r.act j = .ret rd t res out →
        r.Last (· = .firstLoad rd) i j → k ≤ i → res = 0) ∧
      ∀ rd, (r.st k).reader rd = .idle →
        ∃ e, (t, e) ∈ draws r k ∧ (machine W R).Exec (r.st k) (readActs rd t e) (r.st k)) := by
  have hd : (draws r n).length < 2 ^ 62 := hlen.trans_lt (by decide)
  refine ⟨fun k hk => ?_, fun j hj rd t res out hret ht => ?_, fun k hk hidle t ht => ⟨?_, ?_⟩⟩
  · rw [tickets_run r (by omega) hk, head_run r hk, UInt64.toNat_ofNat', Nat.mod_eq_of_lt]
    have := length_draws_le r hk
    omega
  · obtain ⟨i, hlast, hiff⟩ := ret_iff_committed r hlen hj hret ht
    refine ⟨i, hlast, hiff, fun hres => ?_⟩
    obtain ⟨c, hc, w, hcommit⟩ := hiff.mp hres
    obtain ⟨e, d, hdc, hdraw⟩ := draw_of_commit r (by have := hlast.lt; omega) hcommit
    have hwhole := ret_whole r hd (clear_run r hlen) hj (hres ▸ hret) (ht.trans (by decide))
    have he : e = out := hwhole.2 d (by have := hlast.lt; omega) w e hdraw
    exact ⟨c, hc, w, hcommit, d, hdc, he ▸ hdraw⟩
  · intro j hj i rd res out hret hlast hki
    obtain ⟨hslot, hc, -⟩ := committed_of_idle r hlen hk hidle ht
    obtain ⟨i', hlast', hiff⟩ := ret_iff_committed r hlen hj hret hslot
    obtain rfl := hlast.unique hlast'
    obtain ⟨c, hck, hcommit⟩ := (committed_iff r hlen hslot hk).mp hc
    exact hiff.mpr ⟨c, hck.trans_le hki, hcommit⟩
  · intro rd hrd
    obtain ⟨-, hc, hmem⟩ := committed_of_idle r hlen hk hidle ht
    exact ⟨_, hmem, exec_read hrd hc⟩

end Runs

/-- One record: the commit comes before the first load of the read that returns
it. -/
theorem commit_visible_one :
    ∃ (n : Nat) (r : Run (machine Unit Unit) n), (draws r n).length ≤ logSlots ∧
      ∃ j < n, ∃ i < j, ∃ c < i, r.act j = .ret () 0 0 (fun _ => 5) ∧ r.act i = .firstLoad () ∧
        r.act c = .commit () 0 := by
  obtain ⟨as, hexec, hmem, hdrawn⟩ := exec_write_read () () fun _ => 5
  obtain ⟨r, -, -, hact⟩ := hexec.exists_run rfl
  have hlen : (draws r as.length).length ≤ logSlots := by
    rw [draws, Run.seen_of_map_act _ hact, hdrawn]
    decide
  obtain ⟨j, hj, hret⟩ := Run.exists_act hact hmem
  obtain ⟨i, hlast, hiff, -⟩ := (commit_visible r hlen).2.1 j hj _ _ _ _ hret (by decide)
  obtain ⟨c, hc, ⟨⟩, hcommit⟩ := hiff.mp rfl
  exact ⟨_, r, hlen, j, hj, i, hlast.lt, c, hc, hret, hlast.mark, hcommit⟩

end Logger
