import SystemsDrills.Lib.Calls
import SystemsDrills.Region.Sorted

/-!
# The mini-RCU

`translate` and `region_add` of `Interview/mock1_rcu.c`, built without
`BREAK_IT`.  Up to `MAX_READERS` readers, each with an id of its own, call
`translate` over and over, and any number of writers call `region_add`.

Each atomic access and each mutex operation is one step.  So is each round of
the binary search and each `memcpy` into a table under construction.

A table is named by the block it lives in.  `malloc` returns a block that was
never used before, so that two tables are told apart even where the allocator
would hand out the same address again.  Nothing stops a thread from reading a
block that was freed: such a read yields anything.
-/

namespace Rcu

open Transition GuestMemory GuestMemory.Sorted

/-- `MAX_READERS`. -/
abbrev maxReaders : Nat := 8

/-- What is in a block. -/
inductive Cell where
  | fresh
  | live (t : RegionTable)
  | freed

/-- `s & 1`: the reader is inside a read section. -/
def inSection (s : UInt64) : Bool := s &&& 1 != 0

/-- The steps in which `region_add` fills the block of the new table. -/
inductive Stage where
  | low
  | region
  | high
  | count
deriving DecidableEq, Repr

/-- What a step writes into the block. -/
def Stage.fill (new old : RegionTable) (rgn : Region) (pos : Nat) : Stage → RegionTable
  | .low => copyLow new old pos
  | .region => putRegion new rgn pos
  | .high => copyHigh new old pos
  | .count => setN new old

/-- Where a reader is, with the locals of `translate` and what it calls. -/
inductive ReaderPc where
  | idle
  | beginLoad (gpa hva : UInt64)
  | beginStore (gpa hva s : UInt64)
  | loadCurrent (gpa hva : UInt64)
  /-- `lookup`, before it reads `t->n`. -/
  | lookup (t : Nat) (gpa hva : UInt64)
  | search (t : Nat) (gpa hva : UInt64) (lo hi : Nat)
  | endLoad (t : Nat) (gpa hva : UInt64) (ans : Bool × UInt64)
  | endStore (t : Nat) (gpa hva : UInt64) (ans : Bool × UInt64) (s : UInt64)

/-- Where a writer is, with the locals of `region_add` and of
`wait_for_readers`. -/
inductive WriterPc where
  | idle
  | check (rgn : Region)
  | lock (rgn : Region)
  | load (rgn : Region)
  | scan (rgn : Region) (old : Nat)
  | alloc (rgn : Region) (old pos : Nat)
  | fill (rgn : Region) (old new pos : Nat) (stage : Stage)
  | publish (rgn : Region) (old new : Nat)
  | wait (rgn : Region) (old i : Nat)
  | spin (rgn : Region) (old : Nat) (i : Fin maxReaders) (s : UInt64)
  | free (rgn : Region) (old : Nat)
  | unlock (rgn : Region) (res : AddResult)

/-- Where a writer goes after a stage. -/
def Stage.after (rgn : Region) (old new pos : Nat) : Stage → WriterPc
  | .low => .fill rgn old new pos .region
  | .region => .fill rgn old new pos .high
  | .high => .fill rgn old new pos .count
  | .count => .publish rgn old new

structure State (W : Type) where
  current : Nat
  heap : Nat → Cell
  /-- `writer_lock`. -/
  lock : Option W
  seq : Fin maxReaders → UInt64
  reader : Fin maxReaders → ReaderPc
  writer : W → WriterPc

inductive Act (W : Type) where
  | translateCall (i : Fin maxReaders) (gpa hva : UInt64)
  | readerStep (i : Fin maxReaders)
  /-- The last store of `read_end`, with which `translate` returns: the answer
  and what `*hva` holds. -/
  | translateRet (i : Fin maxReaders) (gpa hva : UInt64) (ans : Bool × UInt64)
  | addCall (w : W) (rgn : Region)
  | writerStep (w : W)
  | publish (w : W) (rgn : Region) (old new : Nat)
  | free (w : W) (old : Nat)
  | addRet (w : W) (rgn : Region) (res : AddResult)

instance : Inhabited (Act W) := ⟨.readerStep 0⟩

namespace State

variable {W : Type}

@[simps] def gotoReader (s : State W) (i : Fin maxReaders) (p : ReaderPc) : State W :=
  { s with reader := Function.update s.reader i p }

@[simps] def setSeq (s : State W) (i : Fin maxReaders) (v : UInt64) : State W :=
  { s with seq := Function.update s.seq i v }

@[simps] def setCurrent (s : State W) (p : Nat) : State W := { s with current := p }

@[simps] def setHeap (s : State W) (p : Nat) (c : Cell) : State W :=
  { s with heap := Function.update s.heap p c }

@[simps] def setLock (s : State W) (l : Option W) : State W := { s with lock := l }

@[simps] def gotoWriter [DecidableEq W] (s : State W) (w : W) (p : WriterPc) : State W :=
  { s with writer := Function.update s.writer w p }

/-- A read of block `p` may find the table `t`. -/
def Reads (s : State W) (p : Nat) (t : RegionTable) : Prop :=
  ∀ t', s.heap p = .live t' → t = t'

end State

variable {W : Type} [DecidableEq W]

inductive Step : State W → Act W → State W → Prop where
  | translateCall :
      s.reader i = .idle →
      Step s (.translateCall i gpa hva) (s.gotoReader i (.beginLoad gpa hva))
  | beginLoad :
      s.reader i = .beginLoad gpa hva →
      Step s (.readerStep i) (s.gotoReader i (.beginStore gpa hva (s.seq i)))
  | beginStore :
      s.reader i = .beginStore gpa hva v →
      Step s (.readerStep i) ((s.setSeq i (v + 1)).gotoReader i (.loadCurrent gpa hva))
  | loadCurrent :
      s.reader i = .loadCurrent gpa hva →
      Step s (.readerStep i) (s.gotoReader i (.lookup s.current gpa hva))
  | readN :
      s.reader i = .lookup p gpa hva → s.Reads p t →
      Step s (.readerStep i) (s.gotoReader i (.search p gpa hva 0 t.n))
  | searchRight :
      s.reader i = .search p gpa hva lo hi → lo < hi → s.Reads p t →
      startsAtOrBelow t gpa (lo + (hi - lo) / 2) = true →
      Step s (.readerStep i) (s.gotoReader i (.search p gpa hva (lo + (hi - lo) / 2 + 1) hi))
  | searchLeft :
      s.reader i = .search p gpa hva lo hi → lo < hi → s.Reads p t →
      startsAtOrBelow t gpa (lo + (hi - lo) / 2) = false →
      Step s (.readerStep i) (s.gotoReader i (.search p gpa hva lo (lo + (hi - lo) / 2)))
  | searchEnd :
      s.reader i = .search p gpa hva lo hi → ¬ lo < hi → s.Reads p t →
      Step s (.readerStep i) (s.gotoReader i (.endLoad p gpa hva (lookupAt t gpa hva lo)))
  | endLoad :
      s.reader i = .endLoad p gpa hva ans →
      Step s (.readerStep i) (s.gotoReader i (.endStore p gpa hva ans (s.seq i)))
  | endStore :
      s.reader i = .endStore p gpa hva ans v →
      Step s (.translateRet i gpa hva ans) ((s.setSeq i (v + 1)).gotoReader i .idle)
  | addCall :
      s.writer w = .idle →
      Step s (.addCall w rgn) (s.gotoWriter w (.check rgn))
  | checkFail :
      s.writer w = .check rgn → checkArgs rgn = some res →
      Step s (.addRet w rgn res) (s.gotoWriter w .idle)
  | checkOk :
      s.writer w = .check rgn → checkArgs rgn = none →
      Step s (.writerStep w) (s.gotoWriter w (.lock rgn))
  | lock :
      s.writer w = .lock rgn → s.lock = none →
      Step s (.writerStep w) ((s.setLock (some w)).gotoWriter w (.load rgn))
  | load :
      s.writer w = .load rgn →
      Step s (.writerStep w) (s.gotoWriter w (.scan rgn s.current))
  | scanFail :
      s.writer w = .scan rgn old → s.Reads old t → findPos t rgn = .error res →
      Step s (.writerStep w) (s.gotoWriter w (.unlock rgn res))
  | scanOk :
      s.writer w = .scan rgn old → s.Reads old t → findPos t rgn = .ok pos →
      Step s (.writerStep w) (s.gotoWriter w (.alloc rgn old pos))
  | nomem :
      s.writer w = .alloc rgn old pos →
      Step s (.writerStep w) (s.gotoWriter w (.unlock rgn .addNomem))
  /-- The block has room for `old->n + 1` regions and holds anything. -/
  | malloc :
      s.writer w = .alloc rgn old pos → s.Reads old t → s.heap new = .fresh →
      block.r.length = t.n + 1 →
      Step s (.writerStep w)
        ((s.setHeap new (.live block)).gotoWriter w (.fill rgn old new pos .low))
  | fill :
      s.writer w = .fill rgn old new pos stage → s.Reads old t → s.Reads new block →
      Step s (.writerStep w)
        ((s.setHeap new (.live (stage.fill block t rgn pos))).gotoWriter w
          (stage.after rgn old new pos))
  | publish :
      s.writer w = .publish rgn old new →
      Step s (.publish w rgn old new) ((s.setCurrent new).gotoWriter w (.wait rgn old 0))
  | waitOut {i : Fin maxReaders} :
      s.writer w = .wait rgn old i → inSection (s.seq i) = false →
      Step s (.writerStep w) (s.gotoWriter w (.wait rgn old (i + 1)))
  | waitIn {i : Fin maxReaders} :
      s.writer w = .wait rgn old i → inSection (s.seq i) = true →
      Step s (.writerStep w) (s.gotoWriter w (.spin rgn old i (s.seq i)))
  | spinAgain :
      s.writer w = .spin rgn old i v → s.seq i = v →
      Step s (.writerStep w) s
  | spinEnd :
      s.writer w = .spin rgn old i v → s.seq i ≠ v →
      Step s (.writerStep w) (s.gotoWriter w (.wait rgn old (i + 1)))
  | waitEnd :
      s.writer w = .wait rgn old maxReaders →
      Step s (.writerStep w) (s.gotoWriter w (.free rgn old))
  | free :
      s.writer w = .free rgn old →
      Step s (.free w old) ((s.setHeap old .freed).gotoWriter w (.unlock rgn .addOk))
  | unlock :
      s.writer w = .unlock rgn res →
      Step s (.addRet w rgn res) ((s.setLock none).gotoWriter w .idle)

/-- `main` publishes an empty table. -/
def start (W : Type) : State W where
  current := 0
  heap := Function.update (fun _ => .fresh) 0 (.live .empty)
  lock := none
  seq := fun _ => 0
  reader := fun _ => .idle
  writer := fun _ => .idle

/-- Readers and writers on one table pointer. -/
def machine (W : Type) [DecidableEq W] : System (State W) (Act W) where
  init s := s = start W
  step := Step

end Rcu
