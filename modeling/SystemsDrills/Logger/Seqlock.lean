import SystemsDrills.Logger.Solo

/-!
# Readers get whole records

As long as no two calls of `log_write` are between their two stores to one slot
at the same time, a reader that sees the same committed number twice has copied
the entry of that ticket and nothing else.

`Writing` is the invariant of the log and its writers.  It is stated against the
list of draws so far, in which ticket `t` is item number `t`.
-/

namespace Logger

open Transition

variable {W R : Type}

/-! ## The writers -/

/-- The ticket and the entry of a call that has drawn and not committed. -/
def WriterPc.holds : WriterPc → Option (UInt64 × Entry)
  | .mark t e | .copy t e _ => some (t, e)
  | _ => none

theorem Act.drawn_eq_some {a : Act W R} {t : UInt64} {e : Entry} :
    a.drawn = some (t, e) ↔ ∃ w, a = .draw w t e := by
  cases a <;> simp [drawn]

/-- No other call is between its two stores to the slot of `ticket`. -/
def State.Clear (s : State W R) (w : W) (ticket : UInt64) : Prop :=
  ∀ w' t e done, w' ≠ w → s.writer w' = .copy t e done → slotOf t ≠ slotOf ticket

/-- The log and its writers after the draws `ds`. -/
structure Writing (log : LogBuffer) (writer : W → WriterPc) (ds : List (UInt64 × Entry)) : Prop where
  head : log.head = UInt64.ofNat ds.length
  drawn : ∀ w t e, (writer w).holds = some (t, e) → ds[t.toNat]? = some (t, e)
  distinct : ∀ w w' t e e', (writer w).holds = some (t, e) → (writer w').holds = some (t, e') → w = w'
  /-- A sequence number is that of a ticket that was drawn. -/
  seq : ∀ j, log.seq j = 0 ∨
    ∃ t e, ds[t.toNat]? = some (t, e) ∧ (log.seq j = writing t ∨ log.seq j = committed t)
  /-- A ticket that is held is not committed anywhere. -/
  pending : ∀ w t e, (writer w).holds = some (t, e) → ∀ j, log.seq j ≠ committed t
  copying : ∀ w t e done, writer w = .copy t e done →
    log.seq (slotOf t) = writing t ∧ ∀ i ∈ done, log.entry (slotOf t) i = e i
  /-- A committed slot has the entry of its ticket. -/
  kept : ∀ t, t.toNat < 2 ^ 62 → log.seq (slotOf t) = committed t →
    ds[t.toNat]? = some (t, log.entry (slotOf t))

section

variable {log : LogBuffer} {writer : W → WriterPc} {ds : List (UInt64 × Entry)}

theorem lt_of_drawn (hd : ds.length < 2 ^ 62) {t : UInt64} {e : Entry}
    (h : ds[t.toNat]? = some (t, e)) : t.toNat < 2 ^ 62 :=
  (List.getElem?_eq_some_iff.mp h).1.trans hd

theorem getElem?_concat_of_eq {x y : UInt64 × Entry} {i : Nat} (h : ds[i]? = some x) :
    (ds ++ [y])[i]? = some x := by
  rw [List.getElem?_append_left (List.getElem?_eq_some_iff.mp h).1, h]

theorem holds_copy {p : WriterPc} {t : UInt64} {e : Entry} {done : Finset (Fin entryBytes)}
    (h : p = .copy t e done) : p.holds = some (t, e) := by
  rw [h]
  rfl

namespace Writing

/-- Two calls that are copying into one slot are the same call. -/
theorem copy_unique (hs : Writing log writer ds) (hd : ds.length < 2 ^ 62) {w w' : W}
    {t t' : UInt64} {e e' : Entry} {done done' : Finset (Fin entryBytes)}
    (h : writer w = .copy t e done) (h' : writer w' = .copy t' e' done')
    (hslot : slotOf t' = slotOf t) : w' = w := by
  have ht := lt_of_drawn hd (hs.drawn w t e (holds_copy h))
  have ht' := lt_of_drawn hd (hs.drawn w' t' e' (holds_copy h'))
  have hseq := (hs.copying w' t' e' done' h').1
  rw [hslot, (hs.copying w t e done h).1] at hseq
  obtain rfl := writing_inj ht ht' hseq
  exact hs.distinct w' w t e' e (holds_copy h') (holds_copy h)

/-- A slot that a call is copying into is not committed. -/
theorem copy_not_committed (hs : Writing log writer ds) (hd : ds.length < 2 ^ 62) {w : W}
    {t u : UInt64} {e : Entry} {done : Finset (Fin entryBytes)} (h : writer w = .copy t e done)
    (hu : u.toNat < 2 ^ 62) : log.seq (slotOf t) ≠ committed u := by
  rw [(hs.copying w t e done h).1]
  exact writing_ne_committed (lt_of_drawn hd (hs.drawn w t e (holds_copy h))) hu

/-- A ticket that was not drawn is not committed anywhere. -/
theorem undrawn_not_committed (hs : Writing log writer ds) (hd : ds.length < 2 ^ 62) {u : UInt64}
    (hu : u.toNat < 2 ^ 62) (hds : ds.length ≤ u.toNat) (j : Fin logSlots) :
    log.seq j ≠ committed u := by
  intro hj
  rcases hs.seq j with h0 | ⟨t, e, ht, hw | hc⟩
  · exact committed_ne_zero hu (hj.symm.trans h0)
  · exact writing_ne_committed (lt_of_drawn hd ht) hu (hw.symm.trans hj)
  · obtain rfl := committed_inj (lt_of_drawn hd ht) hu (hc.symm.trans hj)
    have := (List.getElem?_eq_some_iff.mp ht).1
    omega

end Writing

variable [DecidableEq W]

theorem holds_update (writer : W → WriterPc) (w w' : W) (p : WriterPc) :
    (Function.update writer w p w').holds = if w' = w then p.holds else (writer w').holds := by
  by_cases hw : w' = w
  · subst hw; simp
  · simp [hw]

/-- A change of place that keeps what is held keeps who holds it. -/
theorem holds_update_same (writer : W → WriterPc) {w : W} {p : WriterPc}
    (h : (writer w).holds = p.holds) (w' : W) :
    (Function.update writer w p w').holds = (writer w').holds := by
  rw [holds_update]
  split
  · rename_i hw
    rw [hw, h]
  · rfl

theorem copy_of_update {w w' : W} {p : WriterPc} {t : UInt64} {e : Entry}
    {done : Finset (Fin entryBytes)} (h : Function.update writer w p w' = .copy t e done)
    (hp : ∀ t e done, p ≠ .copy t e done) : w' ≠ w ∧ writer w' = .copy t e done := by
  by_cases hw : w' = w
  · subst hw
    rw [Function.update_self] at h
    exact absurd h (hp _ _ _)
  · rw [Function.update_of_ne hw] at h
    exact ⟨hw, h⟩

namespace Writing

/-- A call starts. -/
theorem call (hs : Writing log writer ds) {w : W} (hpc : writer w = .idle) (e : Entry) :
    Writing log (Function.update writer w (.draw e)) ds := by
  have hsame := holds_update_same writer (p := .draw e) (show (writer w).holds = _ by rw [hpc]; rfl)
  refine ⟨hs.head, ?_, ?_, hs.seq, ?_, ?_, hs.kept⟩
  · simpa only [hsame] using hs.drawn
  · simpa only [hsame] using hs.distinct
  · simpa only [hsame] using hs.pending
  · intro w' t' e' done' h'
    obtain ⟨-, h'⟩ := copy_of_update h' fun _ _ _ => nofun
    exact hs.copying w' t' e' done' h'

/-- A call draws the ticket `head`, which nobody has drawn. -/
theorem draw (hs : Writing log writer ds) (hd : (ds ++ [(log.head, e)]).length < 2 ^ 62) (w : W) :
    Writing log.draw (Function.update writer w (.mark log.head e)) (ds ++ [(log.head, e)]) := by
  rw [List.length_append, List.length_singleton] at hd
  have hhead : log.head.toNat = ds.length := by
    rw [hs.head, UInt64.toNat_ofNat']
    omega
  have hnew : (ds ++ [(log.head, e)])[log.head.toNat]? = some (log.head, e) := by
    rw [hhead, List.getElem?_concat_length]
  -- The old tickets are below `head`.
  have hold : ∀ w' e', (writer w').holds ≠ some (log.head, e') := by
    intro w' e' h'
    have := (List.getElem?_eq_some_iff.mp (hs.drawn w' _ _ h')).1
    omega
  refine ⟨?_, ?_, ?_, ?_, ?_, ?_, ?_⟩
  · rw [LogBuffer.draw_head, hs.head, List.length_append, List.length_singleton, UInt64.ofNat_add]
    rfl
  · intro w' t' e' h'
    rw [holds_update] at h'
    split at h'
    · obtain ⟨rfl, rfl⟩ := Prod.mk.inj (Option.some.inj h')
      exact hnew
    · exact getElem?_concat_of_eq (hs.drawn w' t' e' h')
  · intro w' w'' t' e' e'' h' h''
    rw [holds_update] at h' h''
    split at h' <;> split at h''
    · rename_i h1 h2
      exact h1.trans h2.symm
    · obtain ⟨rfl, rfl⟩ := Prod.mk.inj (Option.some.inj h')
      exact absurd h'' (hold _ _)
    · obtain ⟨rfl, rfl⟩ := Prod.mk.inj (Option.some.inj h'')
      exact absurd h' (hold _ _)
    · exact hs.distinct w' w'' t' e' e'' h' h''
  · intro j
    refine (hs.seq j).imp_right ?_
    rintro ⟨t', e', ht', hj⟩
    exact ⟨t', e', getElem?_concat_of_eq ht', hj⟩
  · intro w' t' e' h' j
    rw [holds_update] at h'
    split at h'
    · obtain ⟨rfl, rfl⟩ := Prod.mk.inj (Option.some.inj h')
      exact hs.undrawn_not_committed (by omega) (by omega) hhead.ge j
    · exact hs.pending w' t' e' h' j
  · intro w' t' e' done' h'
    obtain ⟨-, h'⟩ := copy_of_update h' fun _ _ _ => nofun
    exact hs.copying w' t' e' done' h'
  · intro t' ht' hc
    exact getElem?_concat_of_eq (hs.kept t' ht' hc)

/-- A call marks its slot, in which no other call is. -/
theorem mark (hs : Writing log writer ds) (hd : ds.length < 2 ^ 62) {w : W} {t : UInt64}
    {e : Entry} (hpc : writer w = .mark t e)
    (hclear : ∀ w' t' e' done, w' ≠ w → writer w' = .copy t' e' done → slotOf t' ≠ slotOf t) :
    Writing (log.store (slotOf t) (writing t)) (Function.update writer w (.copy t e ∅)) ds := by
  have hheld : (writer w).holds = some (t, e) := by rw [hpc]; rfl
  have hsame := holds_update_same writer (p := .copy t e ∅) hheld
  have hdrawn := hs.drawn w t e hheld
  have ht := lt_of_drawn hd hdrawn
  refine ⟨hs.head, ?_, ?_, ?_, ?_, ?_, ?_⟩
  · simpa only [hsame] using hs.drawn
  · simpa only [hsame] using hs.distinct
  · intro j
    by_cases hj : j = slotOf t
    · exact .inr ⟨t, e, hdrawn, .inl (by simp [hj])⟩
    · simpa [hj] using hs.seq j
  · intro w' t' e' h' j
    rw [hsame] at h'
    by_cases hj : j = slotOf t
    · simpa [hj] using writing_ne_committed ht (lt_of_drawn hd (hs.drawn w' t' e' h'))
    · simpa [hj] using hs.pending w' t' e' h' j
  · intro w' t' e' done' h'
    by_cases hw : w' = w
    · subst hw
      rw [Function.update_self] at h'
      injection h' with h1 h2 h3
      subst h1 h2 h3
      exact ⟨by simp, fun i hi => absurd hi (Finset.notMem_empty i)⟩
    · rw [Function.update_of_ne hw] at h'
      have hslot := hclear w' t' e' done' hw h'
      simpa [hslot] using hs.copying w' t' e' done' h'
  · intro t' ht' hc
    by_cases hslot : slotOf t' = slotOf t
    · rw [hslot, LogBuffer.store_seq, Function.update_self] at hc
      exact absurd hc (writing_ne_committed ht ht')
    · rw [LogBuffer.store_seq, Function.update_of_ne hslot] at hc
      exact hs.kept t' ht' hc

/-- A call copies a byte. -/
theorem copyByte (hs : Writing log writer ds) (hd : ds.length < 2 ^ 62) {w : W} {t : UInt64}
    {e : Entry} {done : Finset (Fin entryBytes)} (hpc : writer w = .copy t e done)
    (i : Fin entryBytes) :
    Writing (log.copyByte (slotOf t) i (e i))
      (Function.update writer w (.copy t e (insert i done))) ds := by
  have hheld := holds_copy hpc
  have hsame := holds_update_same writer (p := .copy t e (insert i done)) hheld
  refine ⟨hs.head, ?_, ?_, hs.seq, ?_, ?_, ?_⟩
  · simpa only [hsame] using hs.drawn
  · simpa only [hsame] using hs.distinct
  · intro w' t' e' h' j
    rw [hsame] at h'
    exact hs.pending w' t' e' h' j
  · intro w' t' e' done' h'
    by_cases hw : w' = w
    · subst hw
      rw [Function.update_self] at h'
      injection h' with h1 h2 h3
      subst h1 h2 h3
      obtain ⟨hseq, hdone⟩ := hs.copying w' t e done hpc
      refine ⟨hseq, fun i' hi' => ?_⟩
      rw [LogBuffer.copyByte_entry, Function.update_self]
      by_cases hii : i' = i
      · simp [hii]
      · rw [Function.update_of_ne hii]
        exact hdone i' (Finset.mem_of_mem_insert_of_ne hi' hii)
    · rw [Function.update_of_ne hw] at h'
      have hslot : slotOf t' ≠ slotOf t := fun h => hw (hs.copy_unique hd hpc h' h)
      simpa [hslot] using hs.copying w' t' e' done' h'
  · intro t' ht' hc
    have hslot : slotOf t' ≠ slotOf t := by
      intro h
      rw [h] at hc
      exact hs.copy_not_committed hd hpc ht' hc
    show ds[t'.toNat]? = some (t', Function.update log.entry (slotOf t) _ (slotOf t'))
    rw [Function.update_of_ne hslot]
    exact hs.kept t' ht' hc

/-- A call commits. -/
theorem commit (hs : Writing log writer ds) (hd : ds.length < 2 ^ 62) {w : W} {t : UInt64}
    {e : Entry} (hpc : writer w = .copy t e Finset.univ) :
    Writing (log.store (slotOf t) (committed t)) (Function.update writer w .idle) ds := by
  have hheld := holds_copy hpc
  have hdrawn := hs.drawn w t e hheld
  have ht := lt_of_drawn hd hdrawn
  have hother : ∀ {w' x}, (Function.update writer w .idle w').holds = some x →
      w' ≠ w ∧ (writer w').holds = some x := by
    intro w' x h'
    rw [holds_update] at h'
    split at h'
    · cases h'
    · exact ⟨‹_›, h'⟩
  refine ⟨hs.head, ?_, ?_, ?_, ?_, ?_, ?_⟩
  · intro w' t' e' h'
    exact hs.drawn w' t' e' (hother h').2
  · intro w' w'' t' e' e'' h' h''
    exact hs.distinct w' w'' t' e' e'' (hother h').2 (hother h'').2
  · intro j
    by_cases hj : j = slotOf t
    · exact .inr ⟨t, e, hdrawn, .inr (by simp [hj])⟩
    · simpa [hj] using hs.seq j
  · intro w' t' e' h' j
    obtain ⟨hw, h'⟩ := hother h'
    by_cases hj : j = slotOf t
    · rw [hj, LogBuffer.store_seq, Function.update_self]
      intro hc
      obtain rfl := committed_inj ht (lt_of_drawn hd (hs.drawn w' t' e' h')) hc
      exact hw (hs.distinct w' w t e' e h' hheld)
    · simpa [hj] using hs.pending w' t' e' h' j
  · intro w' t' e' done' h'
    obtain ⟨hw, h'⟩ := copy_of_update h' fun _ _ _ => nofun
    have hslot : slotOf t' ≠ slotOf t := fun h => hw (hs.copy_unique hd hpc h' h)
    simpa [hslot] using hs.copying w' t' e' done' h'
  · intro t' ht' hc
    by_cases hslot : slotOf t' = slotOf t
    · rw [hslot, LogBuffer.store_seq, Function.update_self] at hc
      obtain rfl := committed_inj ht ht' hc
      -- All bytes are copied, so the slot has the whole entry.
      have hentry : log.entry (slotOf t) = e :=
        funext fun i => (hs.copying w t e _ hpc).2 i (Finset.mem_univ i)
      show ds[t.toNat]? = some (t, log.entry (slotOf t))
      rw [hentry]
      exact hdrawn
    · rw [LogBuffer.store_seq, Function.update_of_ne hslot] at hc
      exact hs.kept t' ht' hc

end Writing

end

/-! ## The readers -/

/-- Ticket `t` was drawn, and its call is over. -/
structure Over (writer : W → WriterPc) (ds : List (UInt64 × Entry)) (t : UInt64) : Prop where
  drawn : ∃ e, ds[t.toNat]? = some (t, e)
  released : ∀ w e, (writer w).holds ≠ some (t, e)

/-- What a reader knows.  From its first load on the ticket is over, so the
committed number cannot come back, and while it is there the bytes copied are
those of the slot. -/
def ReaderPc.Knows (log : LogBuffer) (writer : W → WriterPc) (ds : List (UInt64 × Entry)) :
    ReaderPc → Prop
  | .test1 t v _ => t.toNat < 2 ^ 62 → v = committed t → Over writer ds t
  | .copy t out done => t.toNat < 2 ^ 62 → Over writer ds t ∧
      (log.seq (slotOf t) = committed t → ∀ i ∈ done, out i = log.entry (slotOf t) i)
  | .test2 t v out => t.toNat < 2 ^ 62 → v = committed t → ds[t.toNat]? = some (t, out)
  | _ => True

section

variable {log log' : LogBuffer} {writer writer' : W → WriterPc} {ds : List (UInt64 × Entry)}

theorem Writing.over (hs : Writing log writer ds) (hd : ds.length < 2 ^ 62) {t : UInt64}
    (ht : t.toNat < 2 ^ 62) {j : Fin logSlots} (hc : log.seq j = committed t) :
    Over writer ds t := by
  refine ⟨?_, fun w e h => hs.pending w t e h j hc⟩
  rcases hs.seq j with h0 | ⟨u, e, hu, hw | hw⟩
  · exact absurd (hc.symm.trans h0) (committed_ne_zero ht)
  · exact absurd (hw.symm.trans hc) (writing_ne_committed (lt_of_drawn hd hu) ht)
  · obtain rfl := committed_inj (lt_of_drawn hd hu) ht (hw.symm.trans hc)
    exact ⟨e, hu⟩

/-- A step of a writer takes nothing from a reader if the tickets that are over
stay over and their slots, as long as they are committed, stay as they are. -/
theorem ReaderPc.Knows.mono {p : ReaderPc} (h : p.Knows log writer ds)
    {new : List (UInt64 × Entry)} (hover : ∀ t, Over writer ds t → Over writer' (ds ++ new) t)
    (hkept : ∀ t, t.toNat < 2 ^ 62 → Over writer ds t → log'.seq (slotOf t) = committed t →
      log.seq (slotOf t) = committed t ∧ log'.entry (slotOf t) = log.entry (slotOf t)) :
    p.Knows log' writer' (ds ++ new) := by
  cases p with
  | idle => trivial
  | load1 t out => trivial
  | test1 t v out => exact fun ht hv => hover t (h ht hv)
  | copy t out done =>
      intro ht
      obtain ⟨ho, hbytes⟩ := h ht
      refine ⟨hover t ho, fun hc i hi => ?_⟩
      obtain ⟨hc', he⟩ := hkept t ht ho hc
      rw [he]
      exact hbytes hc' i hi
  | test2 t v out =>
      intro ht hv
      have := h ht hv
      rw [List.getElem?_append_left (List.getElem?_eq_some_iff.mp this).1, this]

end

/-- The whole state after the draws `ds`. -/
structure State.Sound (s : State W R) (ds : List (UInt64 × Entry)) : Prop where
  writing : Writing s.log s.writer ds
  reading : ∀ r, (s.reader r).Knows s.log s.writer ds

theorem sound_start : (start W R).Sound [] where
  writing :=
    { head := rfl
      drawn := nofun
      distinct := nofun
      seq := fun _ => .inl rfl
      pending := nofun
      copying := nofun
      kept := fun _ ht hc => absurd hc.symm (committed_ne_zero ht) }
  reading := fun _ => trivial

variable [DecidableEq W] [DecidableEq R]

/-- A ticket that is over stays so when a call moves, unless the call takes that
very ticket. -/
theorem Over.update {writer : W → WriterPc} {ds : List (UInt64 × Entry)} {t : UInt64}
    (h : Over writer ds t) (new : List (UInt64 × Entry)) {w : W} {p : WriterPc}
    (hp : ∀ e, p.holds = some (t, e) → (writer w).holds = some (t, e)) :
    Over (Function.update writer w p) (ds ++ new) t := by
  obtain ⟨⟨e, he⟩, hrel⟩ := h
  refine ⟨⟨e, ?_⟩, fun w' e' h' => ?_⟩
  · rw [List.getElem?_append_left (List.getElem?_eq_some_iff.mp he).1, he]
  · rw [holds_update] at h'
    split at h'
    · exact hrel w e' (hp e' h')
    · exact hrel w' e' h'

/-- What is kept of the slot of a ticket that is over, as long as it is
committed. -/
theorem Step.slot_kept {s s' : State W R} {a : Act W R} {ds : List (UInt64 × Entry)} {t : UInt64}
    (h : Step s a s') (hs : Writing s.log s.writer ds) (hd : ds.length < 2 ^ 62)
    (ht : t.toNat < 2 ^ 62) (ho : Over s.writer ds t)
    (hc : s'.log.seq (slotOf t) = committed t) :
    s.log.seq (slotOf t) = committed t ∧ s'.log.entry (slotOf t) = s.log.entry (slotOf t) := by
  cases h with
  | @mark _ w u e hpc =>
      have hu := lt_of_drawn hd (hs.drawn w u e (by rw [hpc]; rfl))
      have hslot : slotOf t ≠ slotOf u := by
        intro he
        refine writing_ne_committed hu ht (hc ▸ ?_)
        simp [he]
      exact ⟨by simpa [hslot] using hc, rfl⟩
  | @writeCopy done i _ w u e hpc _ =>
      have hslot : slotOf t ≠ slotOf u := by
        intro he
        exact hs.copy_not_committed hd hpc ht (he ▸ hc)
      exact ⟨hc, funext fun i' => by simp [hslot]⟩
  | @commit _ w u e hpc =>
      have hu := lt_of_drawn hd (hs.drawn w u e (holds_copy hpc))
      have hslot : slotOf t ≠ slotOf u := by
        intro he
        have hut : u = t := committed_inj hu ht (hc ▸ by simp [he])
        exact ho.released w e (hut ▸ holds_copy hpc)
      exact ⟨by simpa [hslot] using hc, rfl⟩
  | _ => exact ⟨hc, rfl⟩

/-- Tickets that are over stay over. -/
theorem Step.over_kept {s s' : State W R} {a : Act W R} {ds : List (UInt64 × Entry)} {t : UInt64}
    (h : Step s a s') (hs : Writing s.log s.writer ds) (hd : ds.length < 2 ^ 62)
    (ho : Over s.writer ds t) : Over s'.writer (ds ++ a.drawn.toList) t := by
  have hread : Over s.writer (ds ++ []) t := by rwa [List.append_nil]
  cases h with
  | writeCall hpc => exact ho.update _ nofun
  | draw hpc =>
      refine ho.update _ fun e he => ?_
      -- The ticket drawn is `head`, and `t` is an earlier one.
      obtain ⟨e', he'⟩ := ho.drawn
      have hlt := (List.getElem?_eq_some_iff.mp he').1
      have hhead : t = s.log.head := (congrArg Prod.fst (Option.some.inj he)).symm
      rw [hhead, hs.head, UInt64.toNat_ofNat'] at hlt
      omega
  | mark hpc => exact ho.update _ fun e he => by rw [hpc]; exact he
  | writeCopy hpc _ => exact ho.update _ fun e he => by rw [hpc]; exact he
  | commit hpc => exact ho.update _ nofun
  | _ => exact hread

/-- The writers' part of one step. -/
theorem Step.writing {s s' : State W R} {a : Act W R} {ds : List (UInt64 × Entry)}
    (h : Step s a s') (hs : Writing s.log s.writer ds)
    (hd : (ds ++ a.drawn.toList).length < 2 ^ 62)
    (hclear : ∀ w t, a = .mark w t → s.Clear w t) :
    Writing s'.log s'.writer (ds ++ a.drawn.toList) := by
  have hd' : ds.length < 2 ^ 62 := by
    rw [List.length_append] at hd
    omega
  have hnil := (List.append_nil ds).symm
  cases h with
  | draw hpc => exact hs.draw hd _
  | writeCall hpc => exact hnil ▸ hs.call hpc _
  | mark hpc => exact hnil ▸ hs.mark hd' hpc (hclear _ _ rfl)
  | writeCopy hpc _ => exact hnil ▸ hs.copyByte hd' hpc _
  | commit hpc => exact hnil ▸ hs.commit hd' hpc
  | _ => exact hnil ▸ hs

/-- One step keeps the state sound, if a call that marks its slot is alone in
it. -/
theorem State.Sound.step {s s' : State W R} {a : Act W R} {ds : List (UInt64 × Entry)}
    (hs : s.Sound ds) (h : Step s a s') (hd : (ds ++ a.drawn.toList).length < 2 ^ 62)
    (hclear : ∀ w t, a = .mark w t → s.Clear w t) : s'.Sound (ds ++ a.drawn.toList) := by
  refine ⟨h.writing hs.writing hd hclear, ?_⟩
  have hd' : ds.length < 2 ^ 62 := by
    rw [List.length_append] at hd
    omega
  -- The readers that do not move lose nothing.
  have hrest : ∀ r, (s.reader r).Knows s'.log s'.writer (ds ++ a.drawn.toList) := fun r =>
    (hs.reading r).mono (fun t ho => h.over_kept hs.writing hd' ho)
      fun t ht ho hc => h.slot_kept hs.writing hd' ht ho hc
  have hmove : ∀ {r p}, (p : ReaderPc).Knows s.log s.writer ds →
      ∀ r', (Function.update s.reader r p r').Knows s.log s.writer (ds ++ []) := by
    intro r p hp
    rw [List.append_nil]
    exact (Function.forall_update_iff s.reader fun _ pc => pc.Knows s.log s.writer ds).mpr
      ⟨hp, fun r' _ => hs.reading r'⟩
  cases h with
  | writeCall _ | draw _ | mark _ | writeCopy _ _ | commit _ => exact hrest
  | readCall hpc => exact hmove trivial
  | firstLoad hpc => exact hmove fun ht hv => hs.writing.over hd' ht hv
  | readMiss hpc _ => exact hmove trivial
  | @readStart v t _ r out hpc hv =>
      have hknows := hs.reading r
      rw [hpc] at hknows
      exact hmove fun ht => ⟨hknows ht hv, fun _ i hi => absurd hi (Finset.notMem_empty i)⟩
  | @readCopy done i _ r t out hpc hi =>
      have hknows := hs.reading r
      rw [hpc] at hknows
      refine hmove fun ht => ⟨(hknows ht).1, fun hc i' hi' => ?_⟩
      by_cases hii : i' = i
      · simp [hii]
      · rw [Function.update_of_ne hii]
        exact (hknows ht).2 hc i' (Finset.mem_of_mem_insert_of_ne hi' hii)
  | @secondLoad _ r t out hpc =>
      have hknows := hs.reading r
      rw [hpc] at hknows
      refine hmove fun ht hv => ?_
      have hout : out = s.log.entry (slotOf t) :=
        funext fun i => (hknows ht).2 hv i (Finset.mem_univ i)
      rw [hout]
      exact hs.writing.kept t ht hv
  | readLapped hpc _ => exact hmove trivial
  | readOk hpc _ => exact hmove trivial

/-- What a call holds it held before, unless it has just drawn it. -/
theorem Step.holds_new {s s' : State W R} {a : Act W R} {w : W} {t : UInt64} {e : Entry}
    (h : Step s a s') (hheld : (s'.writer w).holds = some (t, e)) :
    (s.writer w).holds = some (t, e) ∨ a = .draw w t e := by
  cases h with
  | writeCall hpc | commit hpc =>
      rw [State.gotoWriter_writer, holds_update] at hheld
      split at hheld
      · cases hheld
      · exact .inl hheld
  | draw hpc =>
      rw [State.gotoWriter_writer, holds_update] at hheld
      split at hheld
      · rename_i hw
        obtain ⟨rfl, rfl⟩ := Prod.mk.inj (Option.some.inj hheld)
        exact .inr (by rw [hw])
      · exact .inl hheld
  | mark hpc | writeCopy hpc _ =>
      rw [State.gotoWriter_writer, holds_update_same _ (by simp only [State.setLog_writer, hpc]; rfl)]
        at hheld
      exact .inl hheld
  | _ => exact .inl hheld

/-! ## Whole runs -/

section Runs

variable {n : Nat} (r : Run (machine W R) n)

/-- The tickets drawn before moment `k` and their entries, in order. -/
def draws (k : Nat) : List (UInt64 × Entry) := r.seen Act.drawn k

theorem draws_succ (k : Nat) : draws r (k + 1) = draws r k ++ (r.act k).drawn.toList :=
  r.seen_succ _ k

theorem length_draws_le {k l : Nat} (h : k ≤ l) : (draws r k).length ≤ (draws r l).length :=
  (r.seen_prefix _ h).length_le

theorem Step.head_eq {s s' : State W R} {a : Act W R} (h : Step s a s') :
    s'.log.head = s.log.head + UInt64.ofNat a.drawn.toList.length ∧
      ∀ d ∈ a.drawn, d.1 = s.log.head := by
  cases h with
  | draw hpc =>
      refine ⟨rfl, fun d hd => ?_⟩
      cases hd
      rfl
  | _ => exact ⟨by simp [Act.drawn], fun d hd => by cases hd⟩

theorem head_run {k : Nat} (hk : k ≤ n) :
    (r.st k).log.head = UInt64.ofNat (draws r k).length := by
  refine r.induct_from (P := fun k => (r.st k).log.head = UInt64.ofNat (draws r k).length) ?_ ?_
    (Nat.zero_le k) hk
  · rw [show r.st 0 = start W R from r.start]
    rfl
  · intro k _ _ h ih
    rw [(Step.head_eq h).1, ih, draws_succ, List.length_append, UInt64.ofNat_add]

/-- The tickets are drawn in order, none twice and none left out. -/
theorem tickets_run (hd : (draws r n).length < 2 ^ 64) {k : Nat} (hk : k ≤ n) :
    (draws r k).map (fun d => d.1.toNat) = List.range (draws r k).length := by
  refine r.induct_from
    (P := fun k => (draws r k).map (fun d => d.1.toNat) = List.range (draws r k).length) rfl ?_
    (Nat.zero_le k) hk
  intro k _ hk h ih
  have hlen := length_draws_le r hk
  rw [draws_succ] at hlen ⊢
  cases ha : (r.act k).drawn with
  | none => simpa using ih
  | some d =>
      have hticket : d.1.toNat = (draws r k).length := by
        rw [(Step.head_eq h).2 d ha, head_run r hk.le, UInt64.toNat_ofNat']
        rw [ha] at hlen
        simp only [Option.toList_some, List.length_append, List.length_singleton] at hlen
        omega
      simp only [Option.toList_some, List.map_append, ih, List.map_cons, List.map_nil,
        List.length_append, List.length_singleton, List.range_succ, hticket]

/-- Ticket `t` is item number `t` of the draws. -/
theorem getElem?_draws (hd : (draws r n).length < 2 ^ 64) {k : Nat} (hk : k ≤ n) {t : UInt64}
    {e : Entry} (h : (t, e) ∈ draws r k) : (draws r k)[t.toNat]? = some (t, e) := by
  obtain ⟨i, hi, hget⟩ := List.mem_iff_getElem.mp h
  have hticket : ((draws r k).map fun d => d.1.toNat)[i]? = some t.toNat := by
    rw [List.getElem?_map, List.getElem?_eq_getElem hi, hget]
    rfl
  rw [tickets_run r hd hk, List.getElem?_range hi, Option.some.injEq] at hticket
  rw [← hticket, List.getElem?_eq_getElem hi, hget]

/-- No two calls draw the same ticket. -/
theorem draw_unique (hd : (draws r n).length < 2 ^ 64) {t : UInt64} {e e' : Entry}
    (h : (t, e) ∈ draws r n) (h' : (t, e') ∈ draws r n) : e = e' := by
  have := (getElem?_draws r hd le_rfl h).symm.trans (getElem?_draws r hd le_rfl h')
  exact congrArg Prod.snd (Option.some.inj this)

/-- What a writer holds it has drawn. -/
theorem draw_of_holds {k : Nat} (hk : k ≤ n) {w : W} {t : UInt64} {e : Entry}
    (h : ((r.st k).writer w).holds = some (t, e)) : ∃ d < k, r.act d = .draw w t e := by
  induction k with
  | zero =>
      rw [show r.st 0 = start W R from r.start] at h
      cases h
  | succ k ih =>
      rcases (r.next k hk).holds_new h with h | h
      · obtain ⟨d, hd, hdraw⟩ := ih (by omega) h
        exact ⟨d, by omega, hdraw⟩
      · exact ⟨k, by omega, h⟩

/-- Writers that never come to the same slot are alone in theirs. -/
theorem clear_of_slots (hslots : ∀ i < n, ∀ j < n, ∀ w w' t t' e e', r.act i = .draw w t e →
      r.act j = .draw w' t' e' → w' ≠ w → slotOf t' ≠ slotOf t) :
    ∀ k < n, ∀ w t, r.act k = .mark w t → (r.st k).Clear w t := by
  intro k hk w t ha w' t' e' done hne hpc'
  obtain ⟨j, hj, hdraw'⟩ := draw_of_holds r hk.le (holds_copy hpc')
  have h := r.next k hk
  rw [ha] at h
  generalize r.st (k + 1) = s' at h
  cases h with
  | mark hpc =>
      obtain ⟨i, hi, hdraw⟩ := draw_of_holds r hk.le (w := w) (by rw [hpc]; rfl)
      exact hslots i (hi.trans hk) j (hj.trans hk) w w' t t' _ _ hdraw hdraw' hne

/-- A run in which a call that marks its slot is alone in it is sound at every
moment. -/
theorem sound_run (hd : (draws r n).length < 2 ^ 62)
    (hclear : ∀ k < n, ∀ w t, r.act k = .mark w t → (r.st k).Clear w t) {k : Nat} (hk : k ≤ n) :
    (r.st k).Sound (draws r k) := by
  refine r.induct_from (P := fun k => (r.st k).Sound (draws r k)) ?_ ?_ (Nat.zero_le k) hk
  · rw [show r.st 0 = start W R from r.start]
    exact sound_start
  · intro k _ hk h ih
    rw [draws_succ]
    refine ih.step h ?_ (hclear k hk)
    rw [← draws_succ]
    exact (length_draws_le r hk).trans_lt hd

/-- Whenever `log_read(t)` returns 0, `*out` is the entry that was passed to the
call of `log_write` that drew ticket `t`. -/
def Whole : Prop :=
  ∀ j < n, ∀ rd t out, r.act j = .ret rd t 0 out → t.toNat < 2 ^ 62 →
    (∃ i < j, ∃ w, r.act i = .draw w t out) ∧
    ∀ i < n, ∀ w e, r.act i = .draw w t e → e = out

/-- The three ways for `log_read` to return. -/
theorem Step.ret_cases {s s' : State W R} {rd : R} {t : UInt64} {res : Int} {out : Entry}
    (h : Step s (.ret rd t res out) s') :
    (∃ v, s.reader rd = .test1 t v out ∧ v ≠ committed t ∧ res = -1) ∨
    (∃ v, s.reader rd = .test2 t v out ∧ v ≠ committed t ∧ res = -1) ∨
    s.reader rd = .test2 t (committed t) out ∧ res = 0 := by
  cases h with
  | readMiss hpc hv => exact .inl ⟨_, hpc, hv, rfl⟩
  | readLapped hpc hv => exact .inr (.inl ⟨_, hpc, hv, rfl⟩)
  | readOk hpc hv => exact .inr (.inr ⟨hv ▸ hpc, rfl⟩)

theorem ret_whole (hd : (draws r n).length < 2 ^ 62)
    (hclear : ∀ k < n, ∀ w t, r.act k = .mark w t → (r.st k).Clear w t) {j : Nat} (hj : j < n)
    {rd : R} {t : UInt64} {out : Entry} (hret : r.act j = .ret rd t 0 out)
    (ht : t.toNat < 2 ^ 62) :
    (∃ i < j, ∃ w, r.act i = .draw w t out) ∧ ∀ i < n, ∀ w e, r.act i = .draw w t e → e = out := by
  have hstep := r.next j hj
  rw [hret] at hstep
  have hpc : (r.st j).reader rd = .test2 t (committed t) out := by
    rcases Step.ret_cases hstep with ⟨_, -, -, h⟩ | ⟨_, -, -, h⟩ | ⟨h, -⟩
    · cases h
    · cases h
    · exact h
  have hknows := (sound_run r hd hclear hj.le).reading rd
  rw [hpc] at hknows
  have hmem : (t, out) ∈ draws r j := List.mem_of_getElem? (hknows ht rfl)
  obtain ⟨i, hi, hdraw⟩ := Run.mem_seen.mp hmem
  refine ⟨⟨i, hi, Act.drawn_eq_some.mp hdraw⟩, fun i' hi' w e he => ?_⟩
  have hmem' : (t, e) ∈ draws r n :=
    Run.mem_seen.mpr ⟨i', hi', Act.drawn_eq_some.mpr ⟨w, he⟩⟩
  exact draw_unique r (by omega) hmem' ((r.seen_prefix _ hj.le).subset hmem)

/-- In every run in which no call of `log_write` marks its slot while another
call is between its two stores to the same slot, a read that returns 0 returns
the whole entry of its ticket. -/
theorem whole_of_clear (hd : (draws r n).length < 2 ^ 62)
    (hclear : ∀ k < n, ∀ w t, r.act k = .mark w t → (r.st k).Clear w t) : Whole r :=
  fun _ hj _ _ _ hret ht => ret_whole r hd hclear hj hret ht

end Runs

/-- Writer 0 draws ticket 0, marks slot 0 and stalls. -/
theorem exec_stall (e0 : Entry) :
    (machine (Fin 2) Unit).Exec (start _ _) [.writeCall 0 e0, .draw 0 0 e0, .mark 0 0]
      (((start (Fin 2) Unit).setLog
        (LogBuffer.zero.draw.store (slotOf 0) (writing 0))).gotoWriter 0 (.copy 0 e0 ∅)) :=
  .cons (.writeCall rfl) (.cons (.draw (State.gotoWriter_self ..))
    (.cons (.mark (State.gotoWriter_self ..)) (.of_eq (by simp; rfl))))

/-- Then writer 1 writes a record into slot 1, and it is read back. -/
theorem exec_stall_write_read (e0 e1 : Entry) :
    ∃ (as : List (Act (Fin 2) Unit)) (s : State (Fin 2) Unit),
      (machine (Fin 2) Unit).Exec (start _ _) as s ∧ s.writer 0 = .copy 0 e0 ∅ ∧
      .mark 1 1 ∈ as ∧ .ret () 1 0 e1 ∈ as ∧ as.filterMap Act.drawn = [(0, e0), (1, e1)] ∧
      ∀ w t e, .draw w t e ∈ as → t = if w = 0 then 0 else 1 := by
  let log := LogBuffer.zero.draw.store (slotOf 0) (writing 0)
  let s1 : State (Fin 2) Unit := ((start (Fin 2) Unit).setLog log).gotoWriter 0 (.copy 0 e0 ∅)
  have hstall : (machine (Fin 2) Unit).Exec (start _ _)
      [.writeCall 0 e0, .draw 0 0 e0, .mark 0 0] s1 := exec_stall e0
  have hwrite : (machine (Fin 2) Unit).Exec s1 (writeActs 1 1 e1) (s1.setLog (log.logged e1)) :=
    exec_write rfl e1
  have hread := exec_read (s := s1.setLog (log.logged e1)) (r := ()) (t := log.head) rfl
    (Function.update_self ..)
  rw [show (s1.setLog (log.logged e1)).log.entry (slotOf log.head) = e1 from
    LogBuffer.logged_entry_self .., show log.head = 1 from rfl] at hread
  refine ⟨_, _, hstall.append (hwrite.append hread), rfl, ?_, ?_, ?_, fun w t e hmem => ?_⟩
  · simp [writeActs]
  · exact List.mem_append_right _ (List.mem_append_right _ (ret_mem_readActs ..))
  · rw [List.filterMap_append, List.filterMap_append, drawn_writeActs, drawn_readActs]
    rfl
  · simp only [writeActs, readActs, List.mem_append, List.mem_cons, List.mem_replicate,
      List.not_mem_nil, Act.draw.injEq, reduceCtorEq, and_false, or_false, false_or] at hmem
    obtain ⟨rfl, rfl, -⟩ | ⟨rfl, rfl, -⟩ := hmem
    · rfl
    · rfl

/-- While writer 0 copies into slot 0, writer 1 writes a record into slot 1, and it is read back. -/
theorem whole_of_clear_two :
    ∃ (n : Nat) (r : Run (machine (Fin 2) Unit) n), Whole r ∧
      (r.st n).writer 0 = .copy 0 (fun _ => 7) ∅ ∧ (∃ k < n, r.act k = .mark 1 1) ∧
      ∃ j < n, r.act j = .ret () 1 0 fun _ => 5 := by
  obtain ⟨as, s, hexec, hpc, hmark, hret, hdrawn, htickets⟩ :=
    exec_stall_write_read (fun _ => 7) fun _ => 5
  obtain ⟨r, -, rfl, hact⟩ := hexec.exists_run rfl
  refine ⟨_, r, whole_of_clear r ?_ (clear_of_slots r ?_), hpc, Run.exists_act hact hmark,
    Run.exists_act hact hret⟩
  · rw [draws, Run.seen_of_map_act _ hact, hdrawn]
    decide
  · have hmem : ∀ i < as.length, r.act i ∈ as := fun i hi => by
      have hin := List.mem_map_of_mem (f := r.act) (List.mem_range.mpr hi)
      rwa [hact] at hin
    intro i hi j hj w w' t t' e e' ha ha' hne
    rw [htickets w t e (ha ▸ hmem i hi), htickets w' t' e' (ha' ▸ hmem j hj)]
    have hslot : ∀ w w' : Fin 2, w' ≠ w →
        slotOf (if w' = 0 then 0 else 1) ≠ slotOf (if w = 0 then 0 else 1) := by decide
    exact hslot w w' hne

/-- Writer 0 draws ticket 0, marks slot 0 and stalls.  Writer 1 fills the log and
comes round to slot 0 with ticket 4096, commits it, and then writer 0 copies its
first byte.  A read of ticket 4096 succeeds, with that byte. -/
theorem exec_lapped (e0 e1 : Entry) :
    ∃ (as : List (Act (Fin 2) Unit)) (s : State (Fin 2) Unit) (out : Entry),
      (machine (Fin 2) Unit).Exec (start _ _) as s ∧ .ret () 4096 0 out ∈ as ∧ out 0 = e0 0 ∧
      as.filterMap Act.drawn =
        (0, e0) :: ((List.range 4095).map fun i => (1 + UInt64.ofNat i, e1)) ++ [(4096, e1)] := by
  let s1 : State (Fin 2) Unit := ((start (Fin 2) Unit).setLog
    (LogBuffer.zero.draw.store (slotOf 0) (writing 0))).gotoWriter 0 (.copy 0 e0 ∅)
  have hstall : (machine (Fin 2) Unit).Exec (start _ _)
      [.writeCall 0 e0, .draw 0 0 e0, .mark 0 0] s1 := exec_stall e0
  obtain ⟨as, s, hlap, hhead, hwriter, hreader, hdrawn⟩ := exec_writes (s := s1) (w := 1) rfl e1 4095
  rw [show s1.log.head = 1 from rfl] at hdrawn
  have h4096 : s.log.head = 4096 := hhead
  have hover := exec_write (s := s) (w := 1) (by rw [hwriter]; rfl) e1
  rw [h4096] at hover
  have hbyte := Step.writeCopy (s := s.setLog (s.log.logged e1)) (w := 0) (t := 0) (e := e0) (i := 0)
    (by rw [State.setLog_writer, hwriter]; rfl) (Finset.notMem_empty 0)
  -- The slot is committed for ticket 4096 and has the byte of ticket 0.
  let log := (s.log.logged e1).copyByte (slotOf 0) 0 (e0 0)
  have hseq : log.seq (slotOf 4096) = committed 4096 := by
    show Function.update s.log.seq (slotOf s.log.head) (committed s.log.head) (slotOf 4096) = _
    rw [h4096, Function.update_self]
  have hout : log.entry (slotOf 4096) 0 = e0 0 := by
    rw [show slotOf 4096 = slotOf 0 from rfl, LogBuffer.copyByte_entry, Function.update_self,
      Function.update_self]
  have hread := exec_read
    (s := ((s.setLog (s.log.logged e1)).setLog log).gotoWriter 0 (.copy 0 e0 (insert 0 ∅)))
    (r := ()) (by show s.reader () = _; rw [hreader]; rfl) hseq
  refine ⟨_, _, _, hstall.append (hlap.append (hover.append (.cons hbyte hread))), ?_, hout, ?_⟩
  · exact List.mem_append_right _ (List.mem_append_right _ (List.mem_append_right _
      (List.mem_cons_of_mem _ (ret_mem_readActs ..))))
  · have hdraw : ([.writeCall 0 e0, .draw 0 0 e0, .mark 0 0] : List (Act (Fin 2) Unit)).filterMap
        Act.drawn = [(0, e0)] := rfl
    rw [List.filterMap_append, List.filterMap_append, List.filterMap_append, hdraw, hdrawn,
      drawn_writeActs, List.filterMap_cons_none rfl, drawn_readActs, List.append_nil,
      List.singleton_append, List.cons_append]

/-- A read that returns 0 may return a mixture of two entries. -/
theorem not_whole_lapped :
    ∃ (n : Nat) (r : Run (machine (Fin 2) Unit) n), (draws r n).length < 2 ^ 62 ∧ ¬ Whole r := by
  obtain ⟨as, s, out, hexec, hmem, hout, hdrawn⟩ := exec_lapped (fun _ => 0) fun _ => 1
  obtain ⟨r, -, -, hact⟩ := hexec.exists_run rfl
  have hdraws : draws r as.length = _ := (Run.seen_of_map_act Act.drawn hact).trans hdrawn
  refine ⟨_, r, ?_, fun hwhole => ?_⟩
  · rw [hdraws, List.length_append, List.length_cons, List.length_map, List.length_range,
      List.length_singleton]
    decide
  · obtain ⟨j, hj, hret⟩ := Run.exists_act hact hmem
    obtain ⟨⟨i, hi, w, hdraw⟩, -⟩ := hwhole j hj () 4096 out hret (by decide)
    have hin : (4096, out) ∈ draws r as.length :=
      Run.mem_seen.mpr ⟨i, hi.trans hj, Act.drawn_eq_some.mpr ⟨w, hdraw⟩⟩
    -- The entries drawn with tickets other than 0 are all ones.
    have hone : out = fun _ => 1 := by
      rw [hdraws] at hin
      rcases List.mem_append.mp hin with hin | hin
      · rcases List.mem_cons.mp hin with h | hin
        · have hticket : (4096 : UInt64) = 0 := congrArg Prod.fst h
          exact absurd hticket (by decide)
        · obtain ⟨_, -, h⟩ := List.mem_map.mp hin
          exact (congrArg Prod.snd h).symm
      · exact congrArg Prod.snd (List.mem_singleton.mp hin)
    rw [hone] at hout
    exact absurd hout (by decide)

end Logger
