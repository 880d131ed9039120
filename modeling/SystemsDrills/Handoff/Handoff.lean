import SystemsDrills.Lib.Transition
import SystemsDrills.Lib.Views

/-!
# The handoff of a record

`concurrency/03-handoff/handoff.c`.  `write_handoff` fills a `struct Log` with plain stores and then
sets `flag` with a release store.  The reader loads `flag` with an acquire load, once (`read_try`) or
until it is set (`read_spin`), and then checks every field (`check_log`).

The memory is that of `SystemsDrills.Lib.Views`: the reader may find any store that it does not know
to be replaced.  Each load and each store is a step.  Before the writer's stores the fields of the
record hold anything.

What carries the proof is that a view with the store to `flag` has the stores to all fields.  The
view of the release store has it, and the join of two views keeps it.
-/

namespace Handoff

open Transition Views

/-! ## The code -/

/-- `flag`, `time_saved` and the fields of `our_log`. -/
inductive Loc where
  | time
  | cpuid
  | data (i : Nat)
  | timeSaved
  | flag
deriving DecidableEq

inductive Thread where
  | writer
  | reader
deriving DecidableEq

/-- Which function the reader runs. -/
inductive Mode where
  | spin
  | once
deriving DecidableEq

/-- Where `write_handoff` is. -/
inductive WriterPc where
  | storeTime
  | storeCpuid
  | storeData (i : Nat)
  | loadTime
  | storeSaved (time : Int)
  | setFlag
  | done
deriving DecidableEq

/-- After `log->data[i] = i`. -/
def afterData (i : Nat) : WriterPc := if i < 3 then .storeData (i + 1) else .loadTime

/-- Where the reader is, with the locals of `check_log`.  At the end it returned NULL, returned 1, or
failed an assertion. -/
inductive ReaderPc where
  | loadFlag
  | loadCpuid
  | loadTime (cpu : Int)
  | loadData (cpu time : Int) (copy : List Int)
  | checkCopy (cpu time : Int) (copy : List Int)
  | loadSaved (time : Int)
  | ready
  | notReady
  | aborted
deriving DecidableEq

/-- After `copy[i] = log->data[i]`. -/
def afterCopy (cpu time : Int) (copy : List Int) : ReaderPc :=
  if copy.length < 4 then .loadData cpu time copy else .checkCopy cpu time copy

/-- After an assertion. -/
def assert (ok : Bool) (next : ReaderPc) : ReaderPc := if ok then next else .aborted

structure State where
  mem : Memory Loc Thread Int
  writer : WriterPc
  reader : ReaderPc

inductive Act where
  /-- `time_now` returned this. -/
  | clock (time : UInt64)
  | write
  | read
deriving DecidableEq

inductive Step (mode : Mode) : State → Act → State → Prop where
  | storeTime :
      s.writer = .storeTime →
      Step mode s (.clock now)
        { s with mem := s.mem.plainStore .writer .time now.toNat, writer := .storeCpuid }
  | storeCpuid :
      s.writer = .storeCpuid →
      Step mode s .write
        { s with mem := s.mem.plainStore .writer .cpuid 12, writer := .storeData 0 }
  | storeData :
      s.writer = .storeData i →
      Step mode s .write
        { s with mem := s.mem.plainStore .writer (.data i) i, writer := afterData i }
  | loadOwnTime :
      s.writer = .loadTime → s.mem.Finds .writer .time j msg →
      Step mode s .write
        { s with mem := s.mem.plainLoad .writer .time j, writer := .storeSaved msg.val }
  | storeSaved :
      s.writer = .storeSaved time →
      Step mode s .write
        { s with mem := s.mem.plainStore .writer .timeSaved time, writer := .setFlag }
  | setFlag :
      s.writer = .setFlag →
      Step mode s .write
        { s with mem := s.mem.releaseStore .writer .flag 1, writer := .done }
  | flagSet :
      s.reader = .loadFlag → s.mem.Finds .reader .flag j msg → msg.val ≠ 0 →
      Step mode s .read
        { s with mem := s.mem.acquireLoad .reader .flag j msg, reader := .loadCpuid }
  | flagClear :
      s.reader = .loadFlag → s.mem.Finds .reader .flag j msg → msg.val = 0 →
      Step mode s .read
        { s with
          mem := s.mem.acquireLoad .reader .flag j msg
          reader := if mode = .spin then .loadFlag else .notReady }
  | loadCpuid :
      s.reader = .loadCpuid → s.mem.Finds .reader .cpuid j msg →
      Step mode s .read
        { s with mem := s.mem.plainLoad .reader .cpuid j, reader := .loadTime msg.val }
  | loadTime :
      s.reader = .loadTime cpu → s.mem.Finds .reader .time j msg →
      Step mode s .read
        { s with mem := s.mem.plainLoad .reader .time j, reader := .loadData cpu msg.val [] }
  | loadData :
      s.reader = .loadData cpu time copy → s.mem.Finds .reader (.data copy.length) j msg →
      Step mode s .read
        { s with
          mem := s.mem.plainLoad .reader (.data copy.length) j
          reader := afterCopy cpu time (copy ++ [msg.val]) }
  | checkCopy {cpu time : Int} {copy : List Int} :
      s.reader = .checkCopy cpu time copy →
      Step mode s .read
        { s with reader := assert (cpu = 12 ∧ copy = [0, 1, 2, 3]) (.loadSaved time) }
  | loadSaved :
      s.reader = .loadSaved time → s.mem.Finds .reader .timeSaved j msg →
      Step mode s .read
        { s with
          mem := s.mem.plainLoad .reader .timeSaved j
          reader := assert (time = msg.val) .ready }

/-- `main`, from the two calls of `pthread_create` on.  `flag` was cleared. -/
def machine (mode : Mode) : System State Act where
  init s := ∃ junk : Loc → Int, s.mem = .init (Function.update junk .flag 0) ∧
    s.writer = .storeTime ∧ s.reader = .loadFlag
  step := Step mode

/-- The location of the writer's next plain store. -/
def WriterPc.stores : WriterPc → Option Loc
  | .storeTime => some .time
  | .storeCpuid => some .cpuid
  | .storeData i => some (.data i)
  | .storeSaved _ => some .timeSaved
  | .loadTime | .setFlag | .done => none

/-- The location of the reader's next plain load. -/
def ReaderPc.loads : ReaderPc → Option Loc
  | .loadCpuid => some .cpuid
  | .loadTime _ => some .time
  | .loadData _ _ copy => some (.data copy.length)
  | .loadSaved _ => some .timeSaved
  | .loadFlag | .checkCopy _ _ _ | .ready | .notReady | .aborted => none

/-- The next step of a thread is a plain access that may run at the same time as another one of the
same location. -/
inductive State.Racy (s : State) : Prop where
  | store (l : Loc) : s.writer.stores = some l → ¬ s.mem.MayStore .writer l → s.Racy
  | ownLoad : s.writer = .loadTime → ¬ s.mem.MayLoad .writer .time → s.Racy
  | load (l : Loc) : s.reader.loads = some l → ¬ s.mem.MayLoad .reader l → s.Racy

/-! ## What the stores are -/

/-- What the location should hold in the end, with the time that the clock gave. -/
def record (now : Int) : Loc → Int
  | .time | .timeSaved => now
  | .cpuid => 12
  | .data i => i
  | .flag => 1

/-- The store to the location was made. -/
def WriterPc.Stored (pc : WriterPc) : Loc → Prop
  | .time => pc ≠ .storeTime
  | .cpuid => pc ≠ .storeTime ∧ pc ≠ .storeCpuid
  | .data i => i < 4 ∧ pc ≠ .storeTime ∧ pc ≠ .storeCpuid ∧ ∀ k, pc = .storeData k → i < k
  | .timeSaved => pc = .setFlag ∨ pc = .done
  | .flag => pc = .done

/-- The location is part of what is handed over. -/
def Handed : Loc → Prop
  | .time | .cpuid | .timeSaved => True
  | .data i => i < 4
  | .flag => False

/-- A view with the store to `flag` has the stores to all fields. -/
def Knows (v : View Loc Thread) : Prop :=
  1 ≤ v (.store .flag) → ∀ l, Handed l → 1 ≤ v (.store l)

/-- What the writer's locals say. -/
def WriterPc.Ok (now : Int) : WriterPc → Prop
  | .storeData i => i < 4
  | .storeSaved time => time = now
  | _ => True

/-- What the reader's locals say, once it has seen the flag. -/
def ReaderPc.Ok (now : Int) : ReaderPc → Prop
  | .loadTime cpu => cpu = 12
  | .loadData cpu time copy => cpu = 12 ∧ time = now ∧ ∃ k < 4, copy = (List.range k).map Int.ofNat
  | .checkCopy cpu time copy => cpu = 12 ∧ time = now ∧ copy = [0, 1, 2, 3]
  | .loadSaved time => time = now
  | .aborted => False
  | .loadFlag | .loadCpuid | .ready | .notReady => True

/-- The reader has seen the flag. -/
def ReaderPc.checks : ReaderPc → Bool
  | .loadFlag | .notReady => false
  | _ => true

structure State.Inv (s : State) (junk : Loc → Int) (now : Int) : Prop where
  knows : s.mem.AllViews Knows
  released : s.mem.Released .flag
  stored : ∀ l, s.writer.Stored l → (s.mem.hist l).map Msg.val = [junk l, record now l]
  fresh : ∀ l, ¬ s.writer.Stored l → (s.mem.hist l).map Msg.val = [junk l]
  own : ∀ l, s.mem.Latest .writer l
  ownLoads : s.mem.KnowsOwn
  quiet : s.writer ≠ .done → ∀ l, s.mem.loads l .reader = 0
  clear : junk .flag = 0
  writer : s.writer.Ok now
  reader : s.reader.Ok now
  seen : s.reader.checks → s.writer = .done ∧ 1 ≤ s.mem.view .reader (.store .flag)

variable {mode : Mode} {s s' : State} {junk : Loc → Int} {now : Int} {l : Loc} {v w : View Loc Thread}

theorem Knows.bot : Knows ⊥ := fun h => absurd h (by decide)

theorem Knows.sup (hv : Knows v) (hw : Knows w) : Knows (v ⊔ w) := by
  intro h l hl
  rcases le_sup_iff.mp h with h | h
  · exact (hv h l hl).trans le_sup_left
  · exact (hw h l hl).trans le_sup_right

/-- What is not about `flag` may be added. -/
theorem Knows.add (hv : Knows v) (hw : w (.store .flag) = 0) : Knows (v ⊔ w) :=
  hv.sup fun h => absurd h (by rw [hw]; decide)

theorem inv_start (h : (machine mode).init s) : ∃ junk, ∀ now, s.Inv junk now := by
  obtain ⟨junk, hmem, hwriter, hreader⟩ := h
  refine ⟨Function.update junk .flag 0, fun now => ?_⟩
  obtain ⟨mem, writer, reader⟩ := s
  subst hmem hwriter hreader
  constructor
  case knows => exact .init Knows.bot _
  case released => exact .init _ _
  case stored =>
    intro l hl
    cases l <;> simp [WriterPc.Stored] at hl
  case fresh => exact fun l _ => rfl
  case own => exact fun l => le_rfl
  case ownLoads => exact .init _
  case quiet => exact fun _ l => rfl
  case clear => exact Function.update_self ..
  case writer => trivial
  case reader => trivial
  case seen => exact fun h => nomatch h

/-- The writer stores a field. -/
theorem State.Inv.store (h : s.Inv junk now) {val : Int} {pc : WriterPc} (hl : l ≠ .flag)
    (hdone : s.writer ≠ .done) (hnew : ¬ s.writer.Stored l)
    (hstored : ∀ l', pc.Stored l' ↔ s.writer.Stored l' ∨ l' = l) (hval : val = record now l)
    (hok : pc.Ok now) :
    State.Inv { s with mem := s.mem.plainStore .writer l val, writer := pc } junk now := by
  have hchecks : ¬ s.reader.checks := fun hc => hdone (h.seen hc).1
  constructor
  case knows =>
    refine (h.knows.push l val Knows.bot).learn ((h.knows.threads .writer).add ?_)
    exact View.upTo_of_ne (by simpa using hl.symm) _
  case released => exact h.released.push_of_ne hl.symm val ⊥
  case stored =>
    intro l' hl'
    by_cases heq : l' = l
    · subst heq
      show ((s.mem.push l' val ⊥).hist l').map Msg.val = _
      rw [Memory.push_hist_self, List.map_append, h.fresh l' hnew, hval]
      rfl
    · show ((s.mem.push l val ⊥).hist l').map Msg.val = _
      rw [Memory.push_hist_of_ne _ _ _ heq]
      exact h.stored l' (((hstored l').mp hl').resolve_right heq)
  case fresh =>
    intro l' hl'
    rw [hstored, not_or] at hl'
    show ((s.mem.push l val ⊥).hist l').map Msg.val = _
    rw [Memory.push_hist_of_ne _ _ _ hl'.2]
    exact h.fresh l' hl'.1
  case own => exact fun l' => (h.own l').store l val ⊥
  case ownLoads => exact Memory.KnowsOwn.learn (m := s.mem.push l val ⊥) h.ownLoads _ _
  case quiet => exact fun _ => h.quiet hdone
  case clear => exact h.clear
  case writer => exact hok
  case reader => exact h.reader
  case seen => exact fun hc => absurd hc hchecks

/-- A plain load of a location that is not `flag`. -/
theorem State.Inv.load (h : s.Inv junk now) (t : Thread) (hl : l ≠ .flag) (j : Nat)
    (hreader : t = .reader → s.writer = .done) :
    State.Inv { s with mem := s.mem.plainLoad t l j } junk now := by
  have hupTo : (View.upTo l j ⊔ Function.update ⊥ (.load l t) (s.mem.loads l t + 1) :
      View Loc Thread) (.store .flag) = 0 := by
    rw [Pi.sup_apply, View.upTo_of_ne (by simpa using hl.symm), Function.update_of_ne (by simp)]
    rfl
  have hview := Memory.view_le_learn s.mem t
  constructor
  case knows => exact ⟨(h.knows.learn ((h.knows.threads t).add hupTo)).threads, h.knows.stores⟩
  case released => exact h.released
  case stored => exact h.stored
  case fresh => exact h.fresh
  case own => exact fun l' => (h.own l').trans (Nat.succ_le_succ (hview .writer _ _))
  case ownLoads => exact h.ownLoads.plainLoad t l j
  case quiet =>
    intro hdone l'
    have ht : Thread.reader ≠ t := fun heq => hdone (hreader heq.symm)
    show (s.mem.plainLoad t l j).loads l' .reader = 0
    rw [Memory.plainLoad_loads_of_ne s.mem j (.inl ht)]
    exact h.quiet hdone l'
  case clear => exact h.clear
  case writer => exact h.writer
  case reader => exact h.reader
  case seen => exact fun hc => ⟨(h.seen hc).1, (h.seen hc).2.trans (hview .reader _ _)⟩

/-- What a reader that has seen the flag finds. -/
theorem State.Inv.finds (h : s.Inv junk now) (hc : s.reader.checks) (hl : Handed l) :
    s.mem.MayLoad .reader l ∧ ∀ j msg, s.mem.Finds .reader l j msg → msg.val = record now l := by
  obtain ⟨hdone, hflag⟩ := h.seen hc
  have hstored : s.writer.Stored l := by
    rw [hdone]
    cases l <;> simp_all [WriterPc.Stored, Handed]
  have hvals := h.stored l hstored
  have hlen : (s.mem.hist l).length = 2 := by simpa using congrArg List.length hvals
  have hmay : s.mem.MayLoad .reader l := by
    rw [Memory.MayLoad, Memory.Latest, hlen]
    exact Nat.succ_le_succ (h.knows.threads .reader hflag l hl)
  refine ⟨hmay, fun j msg hf => ?_⟩
  have hj : j = 1 := by
    have := hf.eq_last hmay
    omega
  have hget : ((s.mem.hist l).map Msg.val)[1]? = some msg.val := by
    rw [List.getElem?_map, ← hj, hf.2]
    rfl
  rw [hvals] at hget
  exact (Option.some.inj hget).symm

/-- The reader goes on after a plain load. -/
theorem State.Inv.check (h : s.Inv junk now) (hc : s.reader.checks) {j : Nat}
    {msg : Msg Loc Thread Int} (hf : s.mem.Finds .reader l j msg) (hl : Handed l) {pc : ReaderPc}
    (hok : msg.val = record now l → pc.Ok now) :
    State.Inv { s with mem := s.mem.plainLoad .reader l j, reader := pc } junk now := by
  have hne : l ≠ .flag := by
    rintro rfl
    exact hl
  have h' := h.load .reader hne j fun _ => (h.seen hc).1
  exact ⟨h'.knows, h'.released, h'.stored, h'.fresh, h'.own, h'.ownLoads, h'.quiet, h'.clear, h'.writer,
    hok ((h.finds hc hl).2 j msg hf), fun _ => h'.seen hc⟩

/-- What the writer's place says after a store to a field of `data`. -/
theorem stored_afterData {i : Nat} (hi : i < 4) (l : Loc) :
    (afterData i).Stored l ↔ (WriterPc.storeData i).Stored l ∨ l = .data i := by
  unfold afterData
  split
  · cases l <;> simp [WriterPc.Stored]
    omega
  · cases l <;> simp [WriterPc.Stored]
    omega

theorem ok_afterData (i : Nat) : (afterData i).Ok now := by
  unfold afterData
  split
  · next hi => exact Nat.succ_lt_succ hi
  · trivial

/-- The copy of the next field. -/
theorem ok_afterCopy {k : Nat} (hk : k < 4) :
    (afterCopy 12 now ((List.range k).map Int.ofNat ++ [(k : Int)])).Ok now := by
  have hcopy : (List.range k).map Int.ofNat ++ [(k : Int)] = (List.range (k + 1)).map Int.ofNat := by
    rw [List.range_succ, List.map_append]
    rfl
  rw [hcopy, afterCopy, List.length_map, List.length_range]
  split
  · next hlt => exact ⟨rfl, rfl, k + 1, hlt, rfl⟩
  · next hge =>
    have hk : k = 3 := by omega
    subst hk
    exact ⟨rfl, rfl, rfl⟩

theorem State.Inv.setFlag (h : s.Inv junk now) (hpc : s.writer = .setFlag) :
    State.Inv { s with mem := s.mem.releaseStore .writer .flag 1, writer := .done } junk now := by
  have hnew : ¬ s.writer.Stored .flag := by simp [WriterPc.Stored, hpc]
  have hdone : s.writer ≠ .done := by simp [hpc]
  -- The writer has made all its stores, and knows of them.
  have hknows : Knows (s.mem.view .writer ⊔ View.upTo .flag (s.mem.hist .flag).length) := by
    intro _ l hl
    have hstored : s.writer.Stored l := by
      rw [hpc]
      cases l <;> simp_all [WriterPc.Stored, Handed]
    have hlen : (s.mem.hist l).length = 2 := by
      simpa using congrArg List.length (h.stored l hstored)
    have hown := h.own l
    rw [Memory.Latest, hlen] at hown
    exact (Nat.le_of_succ_le_succ hown).trans le_sup_left
  constructor
  case knows => exact (h.knows.push .flag 1 hknows).learn hknows
  case released => exact h.released.releaseStore .writer 1
  case stored =>
    intro l hl
    by_cases heq : l = .flag
    · subst heq
      show ((s.mem.push .flag 1 _).hist .flag).map Msg.val = _
      rw [Memory.push_hist_self, List.map_append, h.fresh .flag hnew]
      rfl
    · show ((s.mem.push .flag 1 _).hist l).map Msg.val = _
      rw [Memory.push_hist_of_ne _ _ _ heq]
      refine h.stored l ?_
      rw [hpc]
      cases l <;> simp_all [WriterPc.Stored]
  case fresh =>
    intro l hl
    have heq : l ≠ .flag := by
      rintro rfl
      exact hl rfl
    show ((s.mem.push .flag 1 _).hist l).map Msg.val = _
    rw [Memory.push_hist_of_ne _ _ _ heq]
    refine h.fresh l ?_
    rw [hpc]
    cases l <;> simp_all [WriterPc.Stored]
  case own => exact fun l => (h.own l).store .flag 1 _
  case ownLoads => exact Memory.KnowsOwn.learn (m := s.mem.push .flag 1 _) h.ownLoads _ _
  case quiet => exact fun hne => absurd rfl hne
  case clear => exact h.clear
  case writer => trivial
  case reader => exact h.reader
  case seen => exact fun hc => absurd (h.seen hc).1 hdone

/-- The reader loads the flag. -/
theorem State.Inv.loadFlag (h : s.Inv junk now) {j : Nat} {msg : Msg Loc Thread Int}
    (hf : s.mem.Finds .reader .flag j msg) {pc : ReaderPc}
    (hok : pc.Ok now) (hseen : pc.checks → msg.val ≠ 0) :
    State.Inv { s with mem := s.mem.acquireLoad .reader .flag j msg, reader := pc } junk now := by
  have hmsg : Knows msg.view := h.knows.stores .flag msg (List.mem_of_getElem? hf.2)
  rw [h.released.acquireLoad_eq hf]
  constructor
  case knows => exact h.knows.learn ((h.knows.threads .reader).sup hmsg)
  case released => exact h.released
  case stored => exact h.stored
  case fresh => exact h.fresh
  case own => exact h.own
  case ownLoads => exact h.ownLoads.learn .reader msg.view
  case quiet => exact h.quiet
  case clear => exact h.clear
  case writer => exact h.writer
  case reader => exact hok
  case seen =>
    intro hc
    have hget : ((s.mem.hist .flag).map Msg.val)[j]? = some msg.val := by
      rw [List.getElem?_map, hf.2]
      rfl
    -- Only the second store to `flag` is not 0.
    have hj : j ≠ 0 := by
      rintro rfl
      have h0 : ((s.mem.hist .flag).map Msg.val)[0]? = some 0 := by
        by_cases hstored : s.writer.Stored .flag
        · rw [h.stored .flag hstored, h.clear]
          rfl
        · rw [h.fresh .flag hstored, h.clear]
          rfl
      exact hseen hc (Option.some.inj (hget.symm.trans h0))
    refine ⟨?_, ?_⟩
    · by_contra hdone
      rw [h.fresh .flag hdone] at hget
      have hlt := (List.getElem?_eq_some_iff.mp hget).1
      rw [List.length_singleton] at hlt
      omega
    · have hle := h.released j msg hf.2
      show 1 ≤ (s.mem.learn .reader msg.view).view .reader (.store .flag)
      rw [Memory.learn_view_self]
      exact (by omega : 1 ≤ msg.view (.store .flag)).trans le_sup_right

/-- The time is chosen by the first step. -/
theorem State.Inv.of_start (h : s.Inv junk now) (hpc : s.writer = .storeTime) (now' : Int) :
    s.Inv junk now' := by
  have hnot : ∀ l, ¬ s.writer.Stored l := by
    intro l hl
    rw [hpc] at hl
    cases l <;> simp [WriterPc.Stored] at hl
  have hchecks : ¬ s.reader.checks := fun hc => by
    have hdone := (h.seen hc).1
    rw [hpc] at hdone
    cases hdone
  refine ⟨h.knows, h.released, fun l hl => absurd hl (hnot l), h.fresh, h.own, h.ownLoads, h.quiet,
    h.clear, ?_, ?_, h.seen⟩
  · rw [hpc]
    trivial
  · cases hr : s.reader with
    | loadFlag => trivial
    | notReady => trivial
    | _ => simp [hr, ReaderPc.checks] at hchecks

theorem State.Inv.step {a : Act} (h : s.Inv junk now) (hs : Step mode s a s') :
    ∃ now, s'.Inv junk now := by
  cases hs with
  | @storeTime now' hpc =>
      have h' := h.of_start hpc now'.toNat
      refine ⟨now'.toNat, h'.store nofun (by simp [hpc]) (by simp [hpc, WriterPc.Stored]) (fun l => ?_)
        rfl trivial⟩
      rw [hpc]
      cases l <;> simp [WriterPc.Stored]
  | storeCpuid hpc =>
      refine ⟨now, h.store nofun (by simp [hpc]) (by simp [hpc, WriterPc.Stored]) (fun l => ?_)
        rfl (Nat.succ_pos 3)⟩
      rw [hpc]
      cases l <;> simp [WriterPc.Stored]
  | @storeData i hpc =>
      have hi : i < 4 := by simpa [hpc, WriterPc.Ok] using h.writer
      refine ⟨now, h.store nofun (by simp [hpc]) (by simp [hpc, WriterPc.Stored]) (fun l => ?_)
        rfl (ok_afterData i)⟩
      rw [hpc]
      exact stored_afterData hi l
  | @loadOwnTime j msg hpc hf =>
      have h' := h.load .writer (l := .time) nofun j nofun
      have hval : msg.val = now := by
        have hget : ((s.mem.hist .time).map Msg.val)[j]? = some msg.val := by
          rw [List.getElem?_map, hf.2]
          rfl
        have hlast := hf.eq_last (h.own .time)
        have hvals := h.stored .time (by simp [hpc, WriterPc.Stored])
        have hlen : (s.mem.hist .time).length = 2 := by simpa using congrArg List.length hvals
        rw [hvals, show j = 1 by omega] at hget
        exact (Option.some.inj hget).symm
      have hsame : ∀ l, (WriterPc.storeSaved msg.val).Stored l ↔ s.writer.Stored l := by
        intro l
        rw [hpc]
        cases l <;> simp [WriterPc.Stored]
      refine ⟨now, h'.knows, h'.released, fun l hl => h'.stored l ((hsame l).mp hl),
        fun l hl => h'.fresh l fun hl' => hl ((hsame l).mpr hl'), h'.own, h'.ownLoads, fun _ => ?_,
        h'.clear, hval, h'.reader, fun hc => ?_⟩
      · exact h'.quiet (by simp [hpc])
      · have hdone := (h.seen hc).1
        simp [hpc] at hdone
  | storeSaved hpc =>
      have htime := h.writer
      rw [hpc] at htime
      refine ⟨now, h.store nofun (by simp [hpc]) (by simp [hpc, WriterPc.Stored]) (fun l => ?_)
        htime trivial⟩
      rw [hpc]
      cases l <;> simp [WriterPc.Stored]
  | setFlag hpc => exact ⟨now, h.setFlag hpc⟩
  | flagSet _ hf hne => exact ⟨now, h.loadFlag hf trivial fun _ => hne⟩
  | flagClear _ hf _ =>
      refine ⟨now, h.loadFlag hf ?_ ?_⟩
      · split <;> trivial
      · split <;> exact nofun
  | loadCpuid hpc hf =>
      have hc : s.reader.checks := by rw [hpc]; rfl
      exact ⟨now, h.check hc hf trivial fun hval => hval⟩
  | loadTime hpc hf =>
      have hc : s.reader.checks := by rw [hpc]; rfl
      have hok := h.reader
      rw [hpc] at hok
      exact ⟨now, h.check hc hf trivial fun hval => ⟨hok, hval, 0, by decide, rfl⟩⟩
  | loadData hpc hf =>
      have hc : s.reader.checks := by rw [hpc]; rfl
      have hok := h.reader
      rw [hpc] at hok
      obtain ⟨rfl, rfl, k, hk, rfl⟩ := hok
      have hlen : ((List.range k).map Int.ofNat).length = k := by simp
      rw [hlen] at hf ⊢
      refine ⟨_, h.check hc hf hk fun hval => ?_⟩
      rw [hval]
      exact ok_afterCopy hk
  | checkCopy hpc =>
      have hc : s.reader.checks := by rw [hpc]; rfl
      have hok := h.reader
      rw [hpc] at hok
      obtain ⟨rfl, htime, rfl⟩ := hok
      exact ⟨now, h.knows, h.released, h.stored, h.fresh, h.own, h.ownLoads, h.quiet, h.clear, h.writer,
        htime, fun _ => h.seen hc⟩
  | loadSaved hpc hf =>
      have hc : s.reader.checks := by rw [hpc]; rfl
      have hok := h.reader
      rw [hpc] at hok
      refine ⟨now, h.check hc hf trivial fun hval => ?_⟩
      rw [hval, show _ = now from hok]
      simp [assert, record, ReaderPc.Ok]

theorem inv_invariant (mode : Mode) : (machine mode).Invariant fun s => ∃ junk now, s.Inv junk now where
  start s h := by
    obtain ⟨junk, h⟩ := inv_start h
    exact ⟨junk, 0, h 0⟩
  next s a s' _ h hs := by
    obtain ⟨junk, now, h⟩ := h
    exact ⟨junk, h.step hs⟩

/-- `read_spin` does not give up. -/
theorem notReady_invariant (mode : Mode) :
    (machine mode).Invariant fun s => s.reader = .notReady → mode = .once where
  start s h := by
    obtain ⟨-, -, -, hreader⟩ := h
    rw [hreader]
    exact nofun
  next s a s' _ h hs := by
    cases hs with
    | storeTime _ | storeCpuid _ | storeData _ | loadOwnTime _ _ | storeSaved _ | setFlag _ => exact h
    | flagSet _ _ _ | loadCpuid _ _ | loadTime _ _ => exact nofun
    | flagClear _ _ _ =>
        cases mode with
        | spin => exact nofun
        | once => exact fun _ => rfl
    | loadData _ _ =>
        simp only [afterCopy]
        split <;> exact nofun
    | checkCopy _ | loadSaved _ _ =>
        simp only [assert]
        split <;> exact nofun

theorem State.Inv.not_racy (h : s.Inv junk now) : ¬ s.Racy := by
  rintro (⟨l, hstores, hrace⟩ | ⟨-, hrace⟩ | ⟨l, hloads, hrace⟩)
  · have hdone : s.writer ≠ .done := by
      intro hdone
      rw [hdone] at hstores
      cases hstores
    refine hrace ⟨h.own l, fun u => ?_⟩
    cases u with
    | writer => exact h.ownLoads .writer l
    | reader =>
        rw [h.quiet hdone l]
        exact Nat.zero_le _
  · exact hrace (h.own .time)
  · have hc : s.reader.checks := by
      cases hr : s.reader <;> simp_all [ReaderPc.loads, ReaderPc.checks]
    have hl : Handed l := by
      have hok := h.reader
      cases hr : s.reader with
      | loadData cpu time copy =>
          rw [hr] at hloads hok
          obtain ⟨-, -, k, hk, rfl⟩ := hok
          cases hloads
          simpa [Handed] using hk
      | _ =>
          rw [hr] at hloads
          cases hloads <;> trivial
    exact hrace (h.finds hc hl).1

/-- No run of the handoff has a race, and no assertion of `check_log` fails.  The store to `flag`
goes behind all others.  The reader returns NULL only when the writer has stored the flag, and
`read_spin` returns nothing else. -/
theorem handoff_safe (hs : (machine mode).Reachable s) :
    ¬ s.Racy ∧ s.reader ≠ .aborted ∧ (s.writer = .setFlag → s.mem.Latest .writer .flag) ∧
      (s.reader = .ready → s.writer = .done) ∧ (s.reader = .notReady → mode = .once) := by
  obtain ⟨junk, now, h⟩ := (inv_invariant mode).reachable hs
  refine ⟨h.not_racy, fun habort => ?_, fun _ => h.own .flag, fun hready => ?_,
    (notReady_invariant mode).reachable hs⟩
  · have hok := h.reader
    rw [habort] at hok
    exact hok
  · exact (h.seen (by rw [hready]; rfl)).1

/-- The record is written while the reader spins, and then read. -/
theorem handoff_safe_spin :
    ∃ s, (machine .spin).Reachable s ∧ s.reader = .ready ∧ s.writer = .done ∧ ¬ s.Racy := by
  have h0 : (machine .spin).Reachable ⟨.init fun _ => 0, .storeTime, .loadFlag⟩ :=
    .init ⟨fun _ => 0, by rw [Function.update_eq_self_iff.mpr rfl], rfl, rfl⟩
  have hclock : Step .spin ⟨.init fun _ => 0, .storeTime, .loadFlag⟩ (.clock 7) _ := .storeTime rfl
  have h1 := h0.step hclock
  have h2 := h1.step (Step.flagClear (j := 0) rfl ⟨by decide, rfl⟩ rfl)
  have h3 := h2.step (Step.storeCpuid rfl)
  have h4 := h3.step (Step.storeData rfl)
  have h5 := h4.step (Step.storeData rfl)
  have h6 := h5.step (Step.storeData rfl)
  have h7 := h6.step (Step.storeData rfl)
  have h8 := h7.step (Step.loadOwnTime (j := 1) rfl ⟨by decide, rfl⟩)
  have h9 := h8.step (Step.storeSaved rfl)
  have h10 := h9.step (Step.setFlag rfl)
  -- The load may still find the old value.
  have h11 := h10.step (Step.flagClear (j := 0) rfl ⟨by decide, rfl⟩ rfl)
  have h12 := h11.step (Step.flagSet (j := 1) rfl ⟨by decide, rfl⟩ (by decide))
  have h13 := h12.step (Step.loadCpuid (j := 1) rfl ⟨by decide, rfl⟩)
  have h14 := h13.step (Step.loadTime (j := 1) rfl ⟨by decide, rfl⟩)
  have h15 := h14.step (Step.loadData (j := 1) rfl ⟨by decide, rfl⟩)
  have h16 := h15.step (Step.loadData (j := 1) rfl ⟨by decide, rfl⟩)
  have h17 := h16.step (Step.loadData (j := 1) rfl ⟨by decide, rfl⟩)
  have h18 := h17.step (Step.loadData (j := 1) rfl ⟨by decide, rfl⟩)
  have h19 := h18.step (Step.checkCopy rfl)
  have h20 := h19.step (Step.loadSaved (j := 1) rfl ⟨by decide, rfl⟩)
  obtain ⟨hrace, -, -, hdone, -⟩ := handoff_safe h20
  exact ⟨_, h20, rfl, hdone rfl, hrace⟩

end Handoff
