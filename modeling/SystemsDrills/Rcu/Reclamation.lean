import SystemsDrills.Rcu.Invariant

/-!
# Safe reclamation

No table is freed while a reader holds it or a writer copies from it, the
current table is never freed, and each table that is replaced is freed once, by
the call that replaced it.
-/

namespace Rcu

open Transition GuestMemory GuestMemory.Sorted

/-- The table a writer is reading: the one it scans and copies from. -/
def WriterPc.copies : WriterPc → Option Nat
  | .scan _ old | .alloc _ old _ | .fill _ old _ _ _ => some old
  | _ => none

/-- The table a writer has replaced and not yet freed, and the region it added. -/
def WriterPc.retires : WriterPc → Option (Region × Nat)
  | .wait rgn old _ | .spin rgn old _ _ | .free rgn old => some (rgn, old)
  | _ => none

/-- The writer that makes the step. -/
def Act.writer? {W : Type} : Act W → Option W
  | .addCall w _ | .writerStep w | .publish w _ _ _ | .free w _ | .addRet w _ _ => some w
  | _ => none

/-- The start of a call of `region_add` by `w`. -/
def Act.startsAdd {W : Type} (w : W) (a : Act W) : Prop := ∃ rgn, a = .addCall w rgn

section

variable {W : Type} {s s' : State W} {m : MemoryMap}

/-! ## What is held is live -/

theorem State.Owned.current_live (hs : s.Owned m) : ∃ t, s.heap s.current = .live t := by
  obtain ⟨t, ht, -⟩ := hs.cur
  exact ⟨t, ht⟩

theorem State.Owned.retired_live (hs : s.Owned m) {w : W} {x : Region × Nat}
    (h : (s.writer w).retires = some x) : x.2 ≠ s.current ∧ ∃ t, s.heap x.2 = .live t := by
  have hok := hs.ok w
  cases hpc : s.writer w with
  | wait | spin | free =>
      rw [hpc] at h hok
      obtain rfl := Option.some.inj h
      exact hok
  | _ => rw [hpc] at h; cases h

theorem State.Owned.copied_live (hs : s.Owned m) {w : W} {p : Nat}
    (h : (s.writer w).copies = some p) : ∃ t, s.heap p = .live t := by
  have hok := hs.ok w
  have hcur := hs.current_live
  cases hpc : s.writer w with
  | scan =>
      rw [hpc] at h hok
      obtain rfl := Option.some.inj h
      exact hok.2 ▸ hcur
  | alloc =>
      rw [hpc] at h hok
      obtain rfl := Option.some.inj h
      exact hok.2.1 ▸ hcur
  | fill =>
      rw [hpc] at h hok
      obtain rfl := Option.some.inj h
      exact hok.1 ▸ hcur
  | _ => rw [hpc] at h; cases h

theorem WriterPc.Awaits.retires {pc : WriterPc} {p : Nat} {i : Fin maxReaders} {v : UInt64}
    (h : pc.Awaits p i v) : ∃ rgn, pc.retires = some (rgn, p) := by
  cases pc with
  | wait rgn | spin rgn => exact ⟨rgn, by rw [← h.1]; rfl⟩
  | _ => exact h.elim

theorem State.Inv.held_live (hs : s.Inv m) {i : Fin maxReaders} {p : Nat}
    (h : (s.reader i).holds = some p) : ∃ t, s.heap p = .live t := by
  rcases hs.held i p h with rfl | ⟨w, hw⟩
  · exact hs.owned.current_live
  · obtain ⟨rgn, hret⟩ := hw.retires
    exact (hs.owned.retired_live hret).2

variable [DecidableEq W]

/-! ## What a step of a writer leads to -/

/-- A writer moves only by its own steps. -/
theorem Step.writer_eq {a : Act W} {w : W} (h : Step s a s') (hw : a.writer? ≠ some w) :
    s'.writer w = s.writer w := by
  have hne : ∀ {w' : W}, some w' ≠ some w → w ≠ w' := fun h he => h (he ▸ rfl)
  cases h with
  | spinAgain => rfl
  | addCall _ | checkFail _ _ | checkOk _ _ | lock _ _ | load _ | scanFail _ _ _ | scanOk _ _ _
  | nomem _ | malloc _ _ _ _ | fill _ _ _ | publish _ | waitOut _ _ | waitIn _ _ | spinEnd _ _
  | waitEnd _ | free _ | unlock _ => exact Function.update_of_ne (hne hw) _ _
  | _ => rfl

theorem findPos_ne_ok (t : RegionTable) (rgn : Region) : findPos t rgn ≠ .error .addOk := by
  unfold findPos
  split_ifs
  · nofun
  · dsimp only
    split_ifs <;> nofun

theorem checkArgs_ne_ok (rgn : Region) : checkArgs rgn ≠ some .addOk := by
  unfold checkArgs
  split_ifs <;> nofun

theorem Step.addRet_ok_inv {w : W} {rgn : Region} (h : Step s (.addRet w rgn .addOk) s') :
    s.writer w = .unlock rgn .addOk := by
  generalize hres : AddResult.addOk = res at h
  cases h with
  | checkFail _ hc =>
      rw [← hres] at hc
      exact absurd hc (checkArgs_ne_ok rgn)
  | unlock hpc => exact hpc

/-- A writer comes to retire a table by publishing its replacement. -/
theorem Step.retires_new {a : Act W} {w : W} {x : Region × Nat} (h : Step s a s')
    (hx : (s'.writer w).retires = some x) :
    (∃ new, s.writer w = .publish x.1 x.2 new ∧ a = .publish w x.1 x.2 new) ∨
    (s.writer w).retires = some x ∧ (a.writer? = some w → a = .writerStep w) := by
  by_cases hw : a.writer? = some w
  swap
  · rw [h.writer_eq hw] at hx
    exact .inr ⟨hx, fun h => absurd h hw⟩
  cases h with
  | addCall _ | checkFail _ _ | checkOk _ _ | lock _ _ | load _ | scanFail _ _ _ | scanOk _ _ _
  | nomem _ | malloc _ _ _ _ | free _ | unlock _ =>
      obtain rfl := Option.some.inj hw
      rw [State.gotoWriter_writer, Function.update_self] at hx
      cases hx
  | @fill _ _ _ _ _ _ stage _ _ _ _ _ =>
      obtain rfl := Option.some.inj hw
      rw [State.gotoWriter_writer, Function.update_self] at hx
      cases stage <;> cases hx
  | publish hpc =>
      obtain rfl := Option.some.inj hw
      rw [State.gotoWriter_writer, Function.update_self] at hx
      obtain rfl := Option.some.inj hx
      exact .inl ⟨_, hpc, rfl⟩
  | waitOut hpc _ | waitIn hpc _ | spinEnd hpc _ | waitEnd hpc =>
      obtain rfl := Option.some.inj hw
      rw [State.gotoWriter_writer, Function.update_self] at hx
      exact .inr ⟨hpc ▸ hx, fun _ => rfl⟩
  | spinAgain hpc _ =>
      obtain rfl := Option.some.inj hw
      exact .inr ⟨hx, fun _ => rfl⟩
  | _ => cases hw

/-- A writer comes to return `ADD_OK` by freeing the table it replaced. -/
theorem Step.unlock_new {a : Act W} {w : W} {rgn : Region} (h : Step s a s')
    (hx : s'.writer w = .unlock rgn .addOk) :
    (∃ old, s.writer w = .free rgn old ∧ a = .free w old) ∨
    s.writer w = .unlock rgn .addOk ∧ a.writer? ≠ some w := by
  by_cases hw : a.writer? = some w
  swap
  · rw [h.writer_eq hw] at hx
    exact .inr ⟨hx, hw⟩
  left
  cases h with
  | addCall _ | checkFail _ _ | checkOk _ _ | lock _ _ | load _ | scanOk _ _ _
  | nomem _ | malloc _ _ _ _ | publish _ | waitOut _ _ | waitIn _ _ | spinEnd _ _ | waitEnd _
  | unlock _ =>
      obtain rfl := Option.some.inj hw
      rw [State.gotoWriter_writer, Function.update_self] at hx
      cases hx
  | @fill _ _ _ _ _ _ stage _ _ _ _ _ =>
      obtain rfl := Option.some.inj hw
      rw [State.gotoWriter_writer, Function.update_self] at hx
      cases stage <;> cases hx
  | scanFail _ _ hpos =>
      obtain rfl := Option.some.inj hw
      rw [State.gotoWriter_writer, Function.update_self] at hx
      obtain ⟨rfl, rfl⟩ := WriterPc.unlock.inj hx
      exact absurd hpos (findPos_ne_ok _ _)
  | free hpc =>
      obtain rfl := Option.some.inj hw
      rw [State.gotoWriter_writer, Function.update_self] at hx
      obtain ⟨rfl, -⟩ := WriterPc.unlock.inj hx
      exact ⟨_, hpc, rfl⟩
  | spinAgain hpc _ =>
      obtain rfl := Option.some.inj hw
      rw [hpc] at hx
      cases hx
  | _ => cases hw

/-- A writer leaves `idle` by a call. -/
theorem Step.idle_or {a : Act W} {w : W} (h : Step s a s') (hx : s'.writer w ≠ .idle) :
    a.startsAdd w ∨ s.writer w ≠ .idle := by
  by_cases hw : a.writer? = some w
  swap
  · rw [h.writer_eq hw] at hx
    exact .inr hx
  have hne : ∀ {pc}, s.writer w = pc → pc ≠ .idle → s.writer w ≠ .idle := fun hpc hn => hpc ▸ hn
  cases h with
  | addCall hpc =>
      obtain rfl := Option.some.inj hw
      exact .inl ⟨_, rfl⟩
  | checkFail hpc _ | checkOk hpc _ | lock hpc _ | load hpc | scanFail hpc _ _ | scanOk hpc _ _
  | nomem hpc | malloc hpc _ _ _ | fill hpc _ _ | publish hpc | waitOut hpc _ | waitIn hpc _
  | spinAgain hpc _ | spinEnd hpc _ | waitEnd hpc | free hpc | unlock hpc =>
      obtain rfl := Option.some.inj hw
      exact .inr (hne hpc nofun)
  | _ => cases hw

/-- A freed block stays freed. -/
theorem Step.freed {a : Act W} {p : Nat} (hs : s.Owned m) (h : Step s a s')
    (hp : s.heap p = .freed) : s'.heap p = .freed := by
  have hne : ∀ {q c}, s.heap q = c → c ≠ .freed → p ≠ q := by
    rintro q c hq hc rfl
    exact hc (hq.symm.trans hp)
  cases h with
  | malloc _ _ hnew _ =>
      exact (Function.update_of_ne (hne hnew nofun) _ _).trans hp
  | @fill _ w new _ _ _ _ _ _ hpc _ _ =>
      have hok := hs.ok w
      rw [hpc] at hok
      obtain ⟨-, -, -, t, block, -, -, -, hnew⟩ := hok
      exact (Function.update_of_ne (hne hnew nofun) _ _).trans hp
  | @free _ w old _ hpc =>
      by_cases hq : p = old
      · rw [hq]
        exact Function.update_self ..
      · exact (Function.update_of_ne hq _ _).trans hp
  | _ => exact hp

/-- What a `free` finds and leaves. -/
theorem Step.free_inv {w : W} {old : Nat} (hs : s.Owned m) (h : Step s (.free w old) s') :
    (∃ rgn, s.writer w = .free rgn old) ∧ s.heap old ≠ .freed ∧ s'.heap old = .freed := by
  cases h with
  | free hpc =>
      obtain ⟨-, t, ht⟩ := hs.retired_live (show (s.writer w).retires = _ by rw [hpc]; rfl)
      refine ⟨⟨_, hpc⟩, ?_, Function.update_self ..⟩
      rw [ht]
      nofun

end

/-! ## Whole runs -/

section Runs

variable {W : Type} [DecidableEq W] {n : Nat} (r : Run (machine W) n)

theorem exists_inv {k : Nat} (hk : k ≤ n) : ∃ m, (r.st k).Inv m :=
  inv_invariant.reachable (r.reachable hk)

/-- No block is freed twice. -/
theorem free_unique {f f' : Nat} (hf : f < n) (hf' : f' < n) {w w' : W} {old : Nat}
    (h : r.act f = .free w old) (h' : r.act f' = .free w' old) : f' = f := by
  -- Of two frees the later one would find the block freed.
  have key : ∀ {f f' : Nat} {w w' : W}, f < f' → f' < n → r.act f = .free w old →
      r.act f' ≠ .free w' old := by
    intro f f' w w' hlt hn h h'
    have hstep := r.next f (by omega)
    have hstep' := r.next f' hn
    rw [h] at hstep
    rw [h'] at hstep'
    obtain ⟨m, hm⟩ := exists_inv r (k := f) (by omega)
    obtain ⟨m', hm'⟩ := exists_inv r hn.le
    obtain ⟨-, -, hfreed⟩ := Step.free_inv hm.owned hstep
    obtain ⟨-, hlive, -⟩ := Step.free_inv hm'.owned hstep'
    refine hlive (r.induct_from (P := fun k => (r.st k).heap old = .freed) hfreed ?_ hlt hn.le)
    intro k _ hk hs hp
    obtain ⟨m, hm⟩ := exists_inv r hk.le
    exact Step.freed hm.owned hs hp
  rcases Nat.lt_trichotomy f f' with hlt | heq | hgt
  · exact absurd h' (key hlt hf' h)
  · exact heq.symm
  · exact absurd h (key hgt hf h')

/-- A table that a writer retires was replaced earlier in the same call. -/
theorem publish_of_retires {k : Nat} (hk : k ≤ n) {w : W} {rgn : Region} {old : Nat}
    (h : ((r.st k).writer w).retires = some (rgn, old)) :
    ∃ p < k, ∃ new, r.act p = .publish w rgn old new ∧
      ∀ l, p ≤ l → l < k → ¬ (r.act l).startsAdd w := by
  obtain ⟨p, hlast, new, hp⟩ := r.exists_origin
    (C := fun a => a.startsAdd w ∨ ∃ rgn old new, a = .publish w rgn old new)
    (I := fun s => (s.writer w).retires = some (rgn, old))
    (Q := fun _ _ b => ∃ new, b = .publish w rgn old new)
    (fun s hs hx => by rw [show s = start W from hs] at hx; cases hx)
    (fun s a s' hs hx => by
      rcases Step.retires_new hs hx with ⟨new, -, rfl⟩ | ⟨hx', ha⟩
      · exact .inl ⟨.inr ⟨_, _, _, rfl⟩, new, rfl⟩
      · refine .inr ⟨?_, hx', fun _ _ => id⟩
        rintro (⟨_, rfl⟩ | ⟨_, _, _, rfl⟩) <;> cases ha rfl) hk h
  refine ⟨p, hlast.lt, new, hp, fun l h1 h2 hl => ?_⟩
  rcases Nat.lt_or_eq_of_le h1 with h1 | rfl
  · exact hlast.since l h1 h2 (.inl hl)
  · obtain ⟨_, hl⟩ := hl
    rw [hp] at hl
    cases hl

/-- A call that is about to return `ADD_OK` has freed the table it replaced. -/
theorem free_of_unlock {k : Nat} (hk : k ≤ n) {w : W} {rgn : Region}
    (h : (r.st k).writer w = .unlock rgn .addOk) :
    ∃ f < k, ∃ old, (r.st f).writer w = .free rgn old ∧ r.act f = .free w old ∧
      ∀ l, f ≤ l → l < k → ¬ (r.act l).startsAdd w := by
  obtain ⟨f, hlast, old, hpc, hf⟩ := r.exists_origin
    (C := fun a => a.startsAdd w ∨ ∃ old, a = .free w old)
    (I := fun s => s.writer w = .unlock rgn .addOk)
    (Q := fun _ u b => ∃ old, u.writer w = .free rgn old ∧ b = .free w old)
    (fun s hs hx => by rw [show s = start W from hs] at hx; cases hx)
    (fun s a s' hs hx => by
      rcases Step.unlock_new hs hx with ⟨old, hpc, rfl⟩ | ⟨hx', ha⟩
      · exact .inl ⟨.inr ⟨_, rfl⟩, old, hpc, rfl⟩
      · refine .inr ⟨?_, hx', fun _ _ => id⟩
        rintro (⟨_, rfl⟩ | ⟨_, rfl⟩) <;> exact ha rfl) hk h
  refine ⟨f, hlast.lt, old, hpc, hf, fun l h1 h2 hl => ?_⟩
  rcases Nat.lt_or_eq_of_le h1 with h1 | rfl
  · exact hlast.since l h1 h2 (.inl hl)
  · obtain ⟨_, hl⟩ := hl
    rw [hf] at hl
    cases hl

/-- The start of the call a writer is in. -/
theorem addCall_of_busy {k : Nat} (hk : k ≤ n) {w : W} (h : (r.st k).writer w ≠ .idle) :
    ∃ a, r.Last (Act.startsAdd w) a k := by
  obtain ⟨a, hlast, -⟩ := r.exists_call (C := Act.startsAdd w) (O := fun _ => False)
    (f := fun _ => ()) (I := fun s => s.writer w ≠ .idle)
    (fun s hs hx => hx (by rw [show s = start W from hs]; rfl))
    (fun s a s' hs hx => ⟨False.elim, Step.idle_or hs hx⟩) hk h
  exact ⟨a, hlast⟩

/-- The steps of a call that returned `ADD_OK`: its start, the publish and the
free. -/
theorem steps_of_addOk {c : Nat} (hc : c < n) {w : W} {rgn : Region}
    (h : r.act c = .addRet w rgn .addOk) :
    ∃ a p f old new, r.Last (Act.startsAdd w) a c ∧ a < p ∧ p < f ∧ f < c ∧
      r.act p = .publish w rgn old new ∧ r.act f = .free w old := by
  have hstep := r.next c hc
  rw [h] at hstep
  have hpc := Step.addRet_ok_inv hstep
  obtain ⟨f, hfc, old, hfree, hf, hnof⟩ := free_of_unlock r hc.le hpc
  obtain ⟨p, hpf, new, hp, hnop⟩ := publish_of_retires r (hfc.le.trans hc.le)
    (show ((r.st f).writer w).retires = some (rgn, old) by rw [hfree]; rfl)
  obtain ⟨a, hlast⟩ := addCall_of_busy r hc.le (w := w) (by rw [hpc]; nofun)
  refine ⟨a, p, f, old, new, hlast, hlast.lt_moment fun l h1 h2 => ?_, hpf, hfc, hp, hf⟩
  rcases Nat.lt_or_ge l f with hlf | hlf
  · exact hnop l h1 hlf
  · exact hnof l hlf h2

/-- Reclamation is safe.  At every moment of every run a table that a reader
holds, or that a writer copies from, is live, and so is the current table.  A
call that returned `ADD_OK` has freed the table it replaced, once, and no step
but this frees it.  Nothing else is ever freed. -/
theorem reclamation_safe :
    (∀ k ≤ n,
      (∀ i p, ((r.st k).reader i).holds = some p → ∃ t, (r.st k).heap p = .live t) ∧
      (∀ w p, ((r.st k).writer w).copies = some p → ∃ t, (r.st k).heap p = .live t) ∧
      ∃ t, (r.st k).heap (r.st k).current = .live t) ∧
    (∀ c < n, ∀ w rgn, r.act c = .addRet w rgn .addOk →
      ∃ a p f old new, r.Last (Act.startsAdd w) a c ∧ a < p ∧ p < f ∧ f < c ∧
        r.act p = .publish w rgn old new ∧ r.act f = .free w old ∧
        ∀ f' < n, ∀ w', r.act f' = .free w' old → f' = f) ∧
    (∀ f < n, ∀ w old, r.act f = .free w old →
      ∃ p < f, ∃ rgn new, r.act p = .publish w rgn old new ∧
        ∀ l, p ≤ l → l < f → ¬ (r.act l).startsAdd w) := by
  refine ⟨fun k hk => ?_, fun c hc w rgn h => ?_, fun f hf w old h => ?_⟩
  · obtain ⟨m, hm⟩ := exists_inv r hk
    exact ⟨fun i p hp => hm.held_live hp, fun w p hp => hm.owned.copied_live hp,
      hm.owned.current_live⟩
  · obtain ⟨a, p, f, old, new, hlast, hap, hpf, hfc, hp, hf⟩ := steps_of_addOk r hc h
    exact ⟨a, p, f, old, new, hlast, hap, hpf, hfc, hp, hf,
      fun f' hf' w' h' => free_unique r (hfc.trans hc) hf' hf h'⟩
  · have hstep := r.next f hf
    rw [h] at hstep
    obtain ⟨m, hm⟩ := exists_inv r hf.le
    obtain ⟨⟨rgn, hpc⟩, -, -⟩ := Step.free_inv hm.owned hstep
    obtain ⟨p, hpf, new, hp, hno⟩ := publish_of_retires r hf.le
      (show ((r.st f).writer w).retires = some (rgn, old) by rw [hpc]; rfl)
    exact ⟨p, hpf, rgn, new, hp, hno⟩

end Runs

end Rcu
