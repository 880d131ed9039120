import SystemsDrills.Lib.SeqCst
import SystemsDrills.Rcu.Reclamation

/-!
# The mini-RCU without sequential consistency

`translate` and `region_add` of `Interview/mock1_rcu.c` on the memory of `SystemsDrills.Lib.Views`, with
the memory orders of the source.  The places and the labels are those of `SystemsDrills.Rcu.Machine`.

`read_begin` stores its number and loads `current` sequentially consistently, and so do `region_add` and
`wait_for_readers` with `current` and the number.  `read_end` is a release store only, and the loads of
the inner loop of `wait_for_readers` are acquire loads: they may find a number that the reader has left
behind long ago.  A thread's load of its own number and the load of `current` under the mutex are
relaxed.

The contents of a table are plain.  A block is one location: a load of a part of it counts as a load of
all of it, and so does a store, which only makes more accesses a race.  `malloc` and `free` are stores.
The mutex hands over what the thread knew that unlocked it.
-/

namespace Rcu

open Transition Views GuestMemory GuestMemory.Sorted

/-- Readers and writers. -/
abbrev Thread (W : Type) : Type := Fin maxReaders ⊕ W

inductive Loc where
  | current
  | seq (i : Fin maxReaders)
  | block (p : Nat)
deriving DecidableEq

inductive Val where
  | ptr (p : Nat)
  | num (v : UInt64)
  | cell (c : Cell)

instance : Inhabited Val := ⟨.ptr 0⟩

def Val.toPtr : Val → Nat
  | .ptr p => p
  | _ => 0

def Val.toNum : Val → UInt64
  | .num v => v
  | _ => 0

def Val.toCell : Val → Cell
  | .cell c => c
  | _ => .freed

/-- A load of a block that holds `v` may find the table `t`. -/
def Val.Shows (v : Val) (t : RegionTable) : Prop := ∀ t', v.toCell = .live t' → t = t'

structure ViewState (W : Type) where
  mem : Memory Loc (Thread W) Val
  /-- The place of the last sequentially consistent store to each location. -/
  floor : Loc → Nat
  /-- `writer_lock`. -/
  lock : Option W
  /-- What the thread that unlocked last has handed over. -/
  handed : View Loc (Thread W)
  reader : Fin maxReaders → ReaderPc
  writer : W → WriterPc

variable {W : Type}

namespace ViewState

/-- The memory after a step of reader `i`. -/
@[simps] def gotoReader (s : ViewState W) (mem : Memory Loc (Thread W) Val) (i : Fin maxReaders)
    (p : ReaderPc) : ViewState W :=
  { s with mem := mem, reader := Function.update s.reader i p }

@[simps] def gotoWriter [DecidableEq W] (s : ViewState W) (mem : Memory Loc (Thread W) Val) (w : W)
    (p : WriterPc) : ViewState W :=
  { s with mem := mem, writer := Function.update s.writer w p }

/-- After a sequentially consistent store to `l` that found the memory `s.mem`. -/
@[simps] def ordered (s : ViewState W) (mem : Memory Loc (Thread W) Val) (l : Loc) : ViewState W :=
  { s with floor := mem.scFloor s.floor l }

@[simps] def setLock (s : ViewState W) (l : Option W) : ViewState W := { s with lock := l }

@[simps] def hand (s : ViewState W) (v : View Loc (Thread W)) : ViewState W := { s with handed := v }

end ViewState

variable [DecidableEq W]

inductive ViewStep : ViewState W → Act W → ViewState W → Prop where
  | translateCall :
      s.reader i = .idle →
      ViewStep s (.translateCall i gpa hva) (s.gotoReader s.mem i (.beginLoad gpa hva))
  /-- Relaxed. -/
  | beginLoad :
      s.reader i = .beginLoad gpa hva → s.mem.Finds (.inl i) (.seq i) j msg →
      ViewStep s (.readerStep i)
        (s.gotoReader (s.mem.relaxedLoad (.inl i) (.seq i) j) i (.beginStore gpa hva msg.val.toNum))
  /-- Sequentially consistent. -/
  | beginStore :
      s.reader i = .beginStore gpa hva v →
      ViewStep s (.readerStep i)
        ((s.gotoReader (s.mem.releaseStore (.inl i) (.seq i) (.num (v + 1))) i
          (.loadCurrent gpa hva)).ordered s.mem (.seq i))
  /-- Sequentially consistent. -/
  | loadCurrent :
      s.reader i = .loadCurrent gpa hva → s.mem.ScFinds s.floor (.inl i) .current j msg →
      ViewStep s (.readerStep i)
        (s.gotoReader (s.mem.acquireLoad (.inl i) .current j msg) i
          (.lookup msg.val.toPtr gpa hva))
  | readN :
      s.reader i = .lookup p gpa hva → s.mem.Finds (.inl i) (.block p) j msg → msg.val.Shows t →
      ViewStep s (.readerStep i)
        (s.gotoReader (s.mem.plainLoad (.inl i) (.block p) j) i (.search p gpa hva 0 t.n))
  | searchRight :
      s.reader i = .search p gpa hva lo hi → lo < hi →
      s.mem.Finds (.inl i) (.block p) j msg → msg.val.Shows t →
      startsAtOrBelow t gpa (lo + (hi - lo) / 2) = true →
      ViewStep s (.readerStep i)
        (s.gotoReader (s.mem.plainLoad (.inl i) (.block p) j) i
          (.search p gpa hva (lo + (hi - lo) / 2 + 1) hi))
  | searchLeft :
      s.reader i = .search p gpa hva lo hi → lo < hi →
      s.mem.Finds (.inl i) (.block p) j msg → msg.val.Shows t →
      startsAtOrBelow t gpa (lo + (hi - lo) / 2) = false →
      ViewStep s (.readerStep i)
        (s.gotoReader (s.mem.plainLoad (.inl i) (.block p) j) i
          (.search p gpa hva lo (lo + (hi - lo) / 2)))
  | searchEnd :
      s.reader i = .search p gpa hva lo hi → ¬ lo < hi →
      s.mem.Finds (.inl i) (.block p) j msg → msg.val.Shows t →
      ViewStep s (.readerStep i)
        (s.gotoReader (s.mem.plainLoad (.inl i) (.block p) j) i
          (.endLoad p gpa hva (lookupAt t gpa hva lo)))
  /-- Relaxed. -/
  | endLoad :
      s.reader i = .endLoad p gpa hva ans → s.mem.Finds (.inl i) (.seq i) j msg →
      ViewStep s (.readerStep i)
        (s.gotoReader (s.mem.relaxedLoad (.inl i) (.seq i) j) i
          (.endStore p gpa hva ans msg.val.toNum))
  /-- Release. -/
  | endStore :
      s.reader i = .endStore p gpa hva ans v →
      ViewStep s (.translateRet i gpa hva ans)
        (s.gotoReader (s.mem.releaseStore (.inl i) (.seq i) (.num (v + 1))) i .idle)
  | addCall :
      s.writer w = .idle →
      ViewStep s (.addCall w rgn) (s.gotoWriter s.mem w (.check rgn))
  | checkFail :
      s.writer w = .check rgn → checkArgs rgn = some res →
      ViewStep s (.addRet w rgn res) (s.gotoWriter s.mem w .idle)
  | checkOk :
      s.writer w = .check rgn → checkArgs rgn = none →
      ViewStep s (.writerStep w) (s.gotoWriter s.mem w (.lock rgn))
  | lock :
      s.writer w = .lock rgn → s.lock = none →
      ViewStep s (.writerStep w)
        ((s.gotoWriter (s.mem.learn (.inr w) s.handed) w (.load rgn)).setLock (some w))
  /-- Relaxed. -/
  | load :
      s.writer w = .load rgn → s.mem.Finds (.inr w) .current j msg →
      ViewStep s (.writerStep w)
        (s.gotoWriter (s.mem.relaxedLoad (.inr w) .current j) w (.scan rgn msg.val.toPtr))
  | scanFail :
      s.writer w = .scan rgn old → s.mem.Finds (.inr w) (.block old) j msg → msg.val.Shows t →
      findPos t rgn = .error res →
      ViewStep s (.writerStep w)
        (s.gotoWriter (s.mem.plainLoad (.inr w) (.block old) j) w (.unlock rgn res))
  | scanOk :
      s.writer w = .scan rgn old → s.mem.Finds (.inr w) (.block old) j msg → msg.val.Shows t →
      findPos t rgn = .ok pos →
      ViewStep s (.writerStep w)
        (s.gotoWriter (s.mem.plainLoad (.inr w) (.block old) j) w (.alloc rgn old pos))
  | nomem :
      s.writer w = .alloc rgn old pos →
      ViewStep s (.writerStep w) (s.gotoWriter s.mem w (.unlock rgn .addNomem))
  /-- The block was never used, has room for `old->n + 1` regions and holds anything. -/
  | malloc :
      s.writer w = .alloc rgn old pos → s.mem.Finds (.inr w) (.block old) j msg →
      msg.val.Shows t → s.mem.value (.block new) = .cell .fresh → block.r.length = t.n + 1 →
      ViewStep s (.writerStep w)
        (s.gotoWriter ((s.mem.plainLoad (.inr w) (.block old) j).plainStore (.inr w) (.block new)
          (.cell (.live block))) w (.fill rgn old new pos .low))
  | fill :
      s.writer w = .fill rgn old new pos stage → s.mem.Finds (.inr w) (.block old) j msg →
      msg.val.Shows t → s.mem.Finds (.inr w) (.block new) k msg' → msg'.val.Shows block →
      ViewStep s (.writerStep w)
        (s.gotoWriter (((s.mem.plainLoad (.inr w) (.block old) j).plainLoad (.inr w) (.block new)
          k).plainStore (.inr w) (.block new) (.cell (.live (stage.fill block t rgn pos)))) w
          (stage.after rgn old new pos))
  /-- Sequentially consistent. -/
  | publish :
      s.writer w = .publish rgn old new →
      ViewStep s (.publish w rgn old new)
        ((s.gotoWriter (s.mem.releaseStore (.inr w) .current (.ptr new)) w
          (.wait rgn old 0)).ordered s.mem .current)
  /-- Sequentially consistent, as the next one. -/
  | waitOut {i : Fin maxReaders} :
      s.writer w = .wait rgn old i → s.mem.ScFinds s.floor (.inr w) (.seq i) j msg →
      inSection msg.val.toNum = false →
      ViewStep s (.writerStep w)
        (s.gotoWriter (s.mem.acquireLoad (.inr w) (.seq i) j msg) w (.wait rgn old (i + 1)))
  | waitIn {i : Fin maxReaders} :
      s.writer w = .wait rgn old i → s.mem.ScFinds s.floor (.inr w) (.seq i) j msg →
      inSection msg.val.toNum = true →
      ViewStep s (.writerStep w)
        (s.gotoWriter (s.mem.acquireLoad (.inr w) (.seq i) j msg) w
          (.spin rgn old i msg.val.toNum))
  /-- Acquire, as the next one. -/
  | spinAgain :
      s.writer w = .spin rgn old i v → s.mem.Finds (.inr w) (.seq i) j msg →
      msg.val.toNum = v →
      ViewStep s (.writerStep w)
        (s.gotoWriter (s.mem.acquireLoad (.inr w) (.seq i) j msg) w (.spin rgn old i v))
  | spinEnd :
      s.writer w = .spin rgn old i v → s.mem.Finds (.inr w) (.seq i) j msg →
      msg.val.toNum ≠ v →
      ViewStep s (.writerStep w)
        (s.gotoWriter (s.mem.acquireLoad (.inr w) (.seq i) j msg) w (.wait rgn old (i + 1)))
  | waitEnd :
      s.writer w = .wait rgn old maxReaders →
      ViewStep s (.writerStep w) (s.gotoWriter s.mem w (.free rgn old))
  | free :
      s.writer w = .free rgn old →
      ViewStep s (.free w old)
        (s.gotoWriter (s.mem.plainStore (.inr w) (.block old) (.cell .freed)) w
          (.unlock rgn .addOk))
  | unlock :
      s.writer w = .unlock rgn res →
      ViewStep s (.addRet w rgn res)
        (((s.gotoWriter s.mem w .idle).setLock none).hand (s.mem.view (.inr w)))

/-- `main` publishes an empty table. -/
def viewStart (W : Type) : ViewState W where
  mem := .init fun
    | .current => .ptr 0
    | .seq _ => .num 0
    | .block p => .cell (if p = 0 then .live .empty else .fresh)
  floor _ := 0
  lock := none
  handed := ⊥
  reader _ := .idle
  writer _ := .idle

/-- Readers and writers on a memory with views. -/
def viewMachine (W : Type) [DecidableEq W] : System (ViewState W) (Act W) where
  init s := s = viewStart W
  step := ViewStep

end Rcu
