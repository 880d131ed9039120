import SystemsDrills.Lib.Transition

/-!
# Ping-pong over two pipes

`ping-pong/main.c` and its first version `main2.c`: a parent sends one byte to its child over one pipe
and gets it back over another, `exchanges` times, and then closes its ends, which ends the child.

Each process has its own table of the four descriptors, so that a pipe reports the end of its data only
when no process has its write end open, and a write fails only when none has its read end open.  A read
from an empty pipe and a write to a full one block: there is no step.  `read_byte` and `write_byte`
retry when a signal interrupts them.  No handler is installed, so `waitpid` is not interrupted.

`Inv` follows the ball.  In every reachable state it is with the parent, in one of the pipes or with
the child, until the parent has had it back `exchanges` times.
-/

namespace PingPong

open Transition

/-! ## Pipes -/

/-- `p2c[0]`, `p2c[1]`, `c2p[0]` and `c2p[1]`. -/
inductive Fd where
  | p2cRead
  | p2cWrite
  | c2pRead
  | c2pWrite
deriving DecidableEq

inductive Proc where
  | parent
  | child
deriving DecidableEq

inductive Pipe where
  | p2c
  | c2p
deriving DecidableEq

def Pipe.readEnd : Pipe → Fd
  | .p2c => .p2cRead
  | .c2p => .c2pRead

def Pipe.writeEnd : Pipe → Fd
  | .p2c => .p2cWrite
  | .c2p => .c2pWrite

/-- The descriptors that each process has open, and the bytes in each pipe. -/
structure Kernel where
  fds : Proc → Fd → Bool
  data : Pipe → List Char

namespace Kernel

/-- After `close(fd)`. -/
@[simps] def close (k : Kernel) (who : Proc) (fd : Fd) : Kernel :=
  { k with fds := Function.update k.fds who (Function.update (k.fds who) fd false) }

/-- After the process has ended. -/
@[simps] def exit (k : Kernel) (who : Proc) : Kernel :=
  { k with fds := Function.update k.fds who fun _ => false }

/-- After `read` has returned a byte. -/
@[simps] def take (k : Kernel) (pipe : Pipe) : Kernel :=
  { k with data := Function.update k.data pipe (k.data pipe).tail }

/-- After `write` of a byte. -/
@[simps] def put (k : Kernel) (pipe : Pipe) (b : Char) : Kernel :=
  { k with data := Function.update k.data pipe (k.data pipe ++ [b]) }

/-- What `read(fd, buf, 1)` may return: `none` is an error and `some none` the end of the data. -/
inductive Reads (k : Kernel) (who : Proc) (pipe : Pipe) : Option (Option Char) → Prop where
  | bad : k.fds who pipe.readEnd = false → k.Reads who pipe none
  | eof : k.fds who pipe.readEnd = true → k.data pipe = [] →
      (∀ u, k.fds u pipe.writeEnd = false) → k.Reads who pipe (some none)
  | byte : k.fds who pipe.readEnd = true → k.data pipe = b :: bs → k.Reads who pipe (some (some b))

/-- How `write(fd, &b, 1)` may end. -/
inductive WriteResult where
  | error
  | sigpipe
  | written
deriving DecidableEq

inductive Writes (capacity : Nat) (k : Kernel) (who : Proc) (pipe : Pipe) : WriteResult → Prop where
  | bad : k.fds who pipe.writeEnd = false → k.Writes capacity who pipe .error
  | broken : k.fds who pipe.writeEnd = true → (∀ u, k.fds u pipe.readEnd = false) →
      k.Writes capacity who pipe .sigpipe
  | ok : k.fds who pipe.writeEnd = true → k.fds u pipe.readEnd = true →
      (k.data pipe).length < capacity → k.Writes capacity who pipe .written

end Kernel

/-! ## The two processes -/

/-- Which of the two programs runs. -/
inductive Program where
  | main
  | main2
deriving DecidableEq

/-- What the parent closes before its loop. -/
def Program.unused : Program → List Fd
  | .main => [.p2cRead, .c2pWrite]
  | .main2 => [.c2pWrite, .p2cRead]

/-- What the parent closes after its loop. -/
def Program.used : Program → List Fd
  | .main => [.p2cWrite, .c2pRead]
  | .main2 => [.c2pRead, .p2cWrite]

/-- A pipe has room for a byte. -/
structure Setup where
  program : Program
  exchanges : Int
  capacity : Nat
  room : 0 < capacity

/-- Where the parent is.  After the closing of `before` comes the loop, and after that of `after` comes
`waitpid`.  `i` is the counter of the loop. -/
inductive ParentPc where
  | before (fds : List Fd)
  | test (i : Nat)
  | write (i : Nat)
  | read (i : Nat)
  | after (i : Nat) (fds : List Fd)
  | done
  | died
  | killed
deriving DecidableEq

/-- Where the child is.  After the closing of `after` comes `_exit(0)`. -/
inductive ChildPc where
  | before (fds : List Fd)
  | read
  | write
  | after (fds : List Fd)
  | exited
  | died
  | killed
deriving DecidableEq

/-- `waitpid` returns. -/
def ChildPc.ended : ChildPc → Bool
  | .exited | .died | .killed => true
  | _ => false

/-- After the parent's read found the end of the data: `main.c` breaks out of the loop, `main2.c` dies. -/
def Program.onEof (program : Program) (i : Nat) : ParentPc :=
  match program with
  | .main => .after i Program.main.used
  | .main2 => .died

structure State where
  kernel : Kernel
  parent : ParentPc
  child : ChildPc
  /-- The parent's byte. -/
  ball : Char
  /-- The child's byte. -/
  copy : Char

inductive Act where
  | step (who : Proc)
  | interrupted (who : Proc)
deriving DecidableEq

instance : Inhabited Act := ⟨.step .parent⟩

inductive Step (setup : Setup) : State → Act → State → Prop where
  | parentClose :
      s.parent = .before (fd :: fds) →
      Step setup s (.step .parent)
        { s with kernel := s.kernel.close .parent fd, parent := .before fds }
  | parentStart :
      s.parent = .before [] →
      Step setup s (.step .parent) { s with parent := .test 0, ball := 'x' }
  | parentMore {i : Nat} :
      s.parent = .test i → (i : Int) < setup.exchanges →
      Step setup s (.step .parent) { s with parent := .write i }
  | parentEnough {i : Nat} :
      s.parent = .test i → ¬ (i : Int) < setup.exchanges →
      Step setup s (.step .parent) { s with parent := .after i setup.program.used }
  | parentWrite :
      s.parent = .write i → s.kernel.Writes setup.capacity .parent .p2c .written →
      Step setup s (.step .parent)
        { s with kernel := s.kernel.put .p2c s.ball, parent := .read i }
  | parentWriteError :
      s.parent = .write i → s.kernel.Writes setup.capacity .parent .p2c .error →
      Step setup s (.step .parent) { s with kernel := s.kernel.exit .parent, parent := .died }
  | parentWriteBroken :
      s.parent = .write i → s.kernel.Writes setup.capacity .parent .p2c .sigpipe →
      Step setup s (.step .parent) { s with kernel := s.kernel.exit .parent, parent := .killed }
  | parentRead :
      s.parent = .read i → s.kernel.Reads .parent .c2p (some (some b)) →
      Step setup s (.step .parent)
        { s with kernel := s.kernel.take .c2p, ball := b, parent := .test (i + 1) }
  | parentReadEof :
      s.parent = .read i → s.kernel.Reads .parent .c2p (some none) →
      Step setup s (.step .parent) { s with parent := setup.program.onEof i }
  | parentReadError :
      s.parent = .read i → s.kernel.Reads .parent .c2p none →
      Step setup s (.step .parent) { s with kernel := s.kernel.exit .parent, parent := .died }
  | parentLastClose :
      s.parent = .after i (fd :: fds) →
      Step setup s (.step .parent)
        { s with kernel := s.kernel.close .parent fd, parent := .after i fds }
  | parentWait :
      s.parent = .after i [] → s.child.ended →
      Step setup s (.step .parent) { s with parent := .done }
  | parentInterrupted :
      s.parent = .write i ∨ s.parent = .read i →
      Step setup s (.interrupted .parent) s
  | childClose :
      s.child = .before (fd :: fds) →
      Step setup s (.step .child) { s with kernel := s.kernel.close .child fd, child := .before fds }
  | childStart :
      s.child = .before [] →
      Step setup s (.step .child) { s with child := .read }
  | childRead :
      s.child = .read → s.kernel.Reads .child .p2c (some (some b)) →
      Step setup s (.step .child) { s with kernel := s.kernel.take .p2c, copy := b, child := .write }
  | childReadEof :
      s.child = .read → s.kernel.Reads .child .p2c (some none) →
      Step setup s (.step .child) { s with child := .after [.p2cRead, .c2pWrite] }
  | childReadError :
      s.child = .read → s.kernel.Reads .child .p2c none →
      Step setup s (.step .child) { s with kernel := s.kernel.exit .child, child := .died }
  | childWrite :
      s.child = .write → s.kernel.Writes setup.capacity .child .c2p .written →
      Step setup s (.step .child) { s with kernel := s.kernel.put .c2p s.copy, child := .read }
  | childWriteError :
      s.child = .write → s.kernel.Writes setup.capacity .child .c2p .error →
      Step setup s (.step .child) { s with kernel := s.kernel.exit .child, child := .died }
  | childWriteBroken :
      s.child = .write → s.kernel.Writes setup.capacity .child .c2p .sigpipe →
      Step setup s (.step .child) { s with kernel := s.kernel.exit .child, child := .killed }
  | childLastClose :
      s.child = .after (fd :: fds) →
      Step setup s (.step .child) { s with kernel := s.kernel.close .child fd, child := .after fds }
  | childExit :
      s.child = .after [] →
      Step setup s (.step .child) { s with kernel := s.kernel.exit .child, child := .exited }
  | childInterrupted :
      s.child = .write ∨ s.child = .read →
      Step setup s (.interrupted .child) s

/-- From `fork` on.  Both processes have all four descriptors. -/
def machine (setup : Setup) : System State Act where
  init s := s.kernel = ⟨fun _ _ => true, fun _ => []⟩ ∧ s.parent = .before setup.program.unused ∧
    s.child = .before [.p2cWrite, .c2pRead]
  step := Step setup

/-! ## Where the ball is -/

inductive Place where
  | parent
  | p2c
  | child
  | c2p
  /-- The exchanges are over. -/
  | finished
deriving DecidableEq

/-- The bytes in a pipe. -/
def Place.bytes (place : Place) : Pipe → List Char
  | .p2c => if place = .p2c then ['x'] else []
  | .c2p => if place = .c2p then ['x'] else []

/-- Where the parent may be.  `n` is the number of exchanges. -/
def ParentPc.Fits (n : Nat) : Place → ParentPc → Prop
  | .parent, .before fds => fds.Nodup ∧ .p2cWrite ∉ fds ∧ .c2pRead ∉ fds
  | .parent, .test i => i ≤ n
  | .parent, .write i | .p2c, .read i | .child, .read i | .c2p, .read i => i < n
  | .finished, .after i fds => i = n ∧ fds.Nodup
  | .finished, .done => True
  | _, _ => False

/-- Where the child may be. -/
def ChildPc.Fits : Place → ChildPc → Prop
  | .parent, .before fds | .p2c, .before fds | .finished, .before fds =>
      fds.Nodup ∧ .p2cRead ∉ fds ∧ .c2pWrite ∉ fds
  | .parent, .read | .p2c, .read | .c2p, .read | .finished, .read => True
  | .child, .write => True
  | .finished, .after fds => fds.Nodup
  | .finished, .exited => True
  | _, _ => False

/-- The descriptors that the parent should have open. -/
def ParentPc.holds : ParentPc → Fd → Prop
  | .before fds, fd => fd ∈ fds ∨ fd = .p2cWrite ∨ fd = .c2pRead
  | .test _, fd | .write _, fd | .read _, fd => fd = .p2cWrite ∨ fd = .c2pRead
  | .after _ fds, fd => fd ∈ fds
  | _, _ => False

/-- The descriptors that the child should have open. -/
def ChildPc.holds : ChildPc → Fd → Prop
  | .before fds, fd => fd ∈ fds ∨ fd = .p2cRead ∨ fd = .c2pWrite
  | .read, fd | .write, fd => fd = .p2cRead ∨ fd = .c2pWrite
  | .after fds, fd => fd ∈ fds
  | _, _ => False

/-- The parent has set its byte. -/
def ParentPc.started : ParentPc → Prop
  | .before _ => False
  | _ => True

structure State.Inv (s : State) (n : Nat) (place : Place) : Prop where
  data : s.kernel.data = place.bytes
  parent : s.parent.Fits n place
  child : s.child.Fits place
  parentFds : ∀ fd, s.kernel.fds .parent fd = true ↔ s.parent.holds fd
  childFds : ∀ fd, s.kernel.fds .child fd = true ↔ s.child.holds fd
  ball : place = .parent → s.parent.started → s.ball = 'x'
  copy : place = .child → s.copy = 'x'
  joined : s.parent = .done → s.child = .exited

variable {setup : Setup} {s s' : State} {n : Nat} {place : Place} {k : Kernel} {who u : Proc}
  {fd fd' : Fd}

theorem inv_start (h : (machine setup).init s) : s.Inv n .parent := by
  obtain ⟨hkernel, hparent, hchild⟩ := h
  obtain ⟨kernel, parent, child, ball, copy⟩ := s
  subst hkernel hparent hchild
  constructor
  case data =>
    funext pipe
    cases pipe <;> rfl
  case parent => cases setup.program <;> simp [ParentPc.Fits, Program.unused]
  case child => simp [ChildPc.Fits]
  case parentFds =>
    intro fd
    cases setup.program <;> cases fd <;> simp [ParentPc.holds, Program.unused]
  case childFds =>
    intro fd
    cases fd <;> simp [ChildPc.holds]
  case ball => exact fun _ h => nomatch h
  case copy => exact fun h => nomatch h
  case joined => exact fun h => nomatch h

/-! ## Descriptors -/

theorem Kernel.close_fds_self (k : Kernel) (who : Proc) (fd fd' : Fd) :
    (k.close who fd).fds who fd' = true ↔ fd' ≠ fd ∧ k.fds who fd' = true := by
  rw [Kernel.close_fds, Function.update_self, Function.update_apply]
  split <;> simp_all

theorem Kernel.close_fds_of_ne (k : Kernel) (fd : Fd) (h : u ≠ who) :
    (k.close who fd).fds u = k.fds u :=
  Function.update_of_ne h ..

theorem Kernel.exit_fds_of_ne (k : Kernel) (h : u ≠ who) : (k.exit who).fds u = k.fds u :=
  Function.update_of_ne h ..

/-- The descriptors of a list of those to be closed, and some others, after the first was closed. -/
theorem ne_and_mem_cons {fds : List Fd} {P : Fd → Prop} (hmem : fd ∉ fds) (hP : ¬ P fd) :
    fd' ≠ fd ∧ (fd' ∈ fd :: fds ∨ P fd') ↔ fd' ∈ fds ∨ P fd' := by
  rw [List.mem_cons]
  constructor
  · rintro ⟨hne, (rfl | hfds) | hrest⟩
    · exact absurd rfl hne
    · exact .inl hfds
    · exact .inr hrest
  · rintro (hfds | hrest)
    · exact ⟨fun he => hmem (he ▸ hfds), .inl (.inr hfds)⟩
    · exact ⟨fun he => hP (he ▸ hrest), .inr hrest⟩

/-- As long as there is a ball, the parent has its ends open. -/
theorem ParentPc.Fits.holds {p : ParentPc} (h : p.Fits n place) (hplace : place ≠ .finished) :
    p.holds .p2cWrite ∧ p.holds .c2pRead := by
  cases place with
  | finished => exact absurd rfl hplace
  | _ => cases p <;> first | exact h.elim | simp [ParentPc.holds]

/-- As long as there is a ball, the child has its ends open. -/
theorem ChildPc.Fits.holds {c : ChildPc} (h : c.Fits place) (hplace : place ≠ .finished) :
    c.holds .p2cRead ∧ c.holds .c2pWrite := by
  cases place with
  | finished => exact absurd rfl hplace
  | _ => cases c <;> first | exact h.elim | simp [ChildPc.holds]

theorem ParentPc.Fits.not_finished {p : ParentPc} (h : p.Fits n place) {i : Nat}
    (hp : p = .test i ∨ p = .write i ∨ p = .read i) : place ≠ .finished := by
  rintro rfl
  obtain rfl | rfl | rfl := hp <;> exact h

/-! ## What the calls return -/

/-- The parent's write neither fails nor breaks. -/
theorem State.Inv.writes_parent (h : s.Inv n place) {i capacity : Nat} (hpc : s.parent = .write i)
    {r : Kernel.WriteResult} (hr : s.kernel.Writes capacity .parent .p2c r) : r = .written := by
  have hplace : place ≠ .finished := h.parent.not_finished (.inr (.inl hpc))
  have hopen : s.kernel.fds .parent .p2cWrite = true := (h.parentFds _).mpr (h.parent.holds hplace).1
  have hchild : s.kernel.fds .child .p2cRead = true := (h.childFds _).mpr (h.child.holds hplace).1
  cases hr with
  | bad hbad => exact absurd (hopen.symm.trans hbad) (by decide)
  | broken _ hnone => exact absurd (hchild.symm.trans (hnone .child)) (by decide)
  | ok => rfl

/-- The parent's read finds the ball in the pipe. -/
theorem State.Inv.reads_parent (h : s.Inv n place) {i : Nat} (hpc : s.parent = .read i)
    {r : Option (Option Char)} (hr : s.kernel.Reads .parent .c2p r) :
    r = some (some 'x') ∧ place = .c2p := by
  have hplace : place ≠ .finished := h.parent.not_finished (.inr (.inr hpc))
  have hopen : s.kernel.fds .parent .c2pRead = true := (h.parentFds _).mpr (h.parent.holds hplace).2
  have hchild : s.kernel.fds .child .c2pWrite = true := (h.childFds _).mpr (h.child.holds hplace).2
  cases hr with
  | bad hbad => exact absurd (hopen.symm.trans hbad) (by decide)
  | eof _ _ hnone => exact absurd (hchild.symm.trans (hnone .child)) (by decide)
  | byte _ hdata =>
      rw [h.data] at hdata
      simp only [Place.bytes] at hdata
      split at hdata
      · next hc2p => exact ⟨by rw [(List.cons.inj hdata).1], hc2p⟩
      · cases hdata

/-- The child's write neither fails nor breaks. -/
theorem State.Inv.writes_child (h : s.Inv n place) {capacity : Nat} (hpc : s.child = .write)
    {r : Kernel.WriteResult} (hr : s.kernel.Writes capacity .child .c2p r) :
    r = .written ∧ place = .child := by
  have hplace : place = .child := by
    have hchild := h.child
    rw [hpc] at hchild
    cases place <;> first | rfl | exact hchild.elim
  have hne : place ≠ .finished := by
    rw [hplace]
    decide
  have hopen : s.kernel.fds .child .c2pWrite = true := (h.childFds _).mpr (h.child.holds hne).2
  have hparent : s.kernel.fds .parent .c2pRead = true := (h.parentFds _).mpr (h.parent.holds hne).2
  cases hr with
  | bad hbad => exact absurd (hopen.symm.trans hbad) (by decide)
  | broken _ hnone => exact absurd (hparent.symm.trans (hnone .parent)) (by decide)
  | ok => exact ⟨rfl, hplace⟩

/-- The child's read finds the ball in the pipe, or the end when all exchanges were made. -/
theorem State.Inv.reads_child (h : s.Inv n place) (hpc : s.child = .read) {r : Option (Option Char)}
    (hr : s.kernel.Reads .child .p2c r) :
    r = some (some 'x') ∧ place = .p2c ∨ r = some none ∧ place = .finished := by
  have hopen : s.kernel.fds .child .p2cRead = true :=
    (h.childFds _).mpr (by rw [hpc]; exact .inl rfl)
  cases hr with
  | bad hbad => exact absurd (hopen.symm.trans hbad) (by decide)
  | eof _ _ hnone =>
      refine .inr ⟨rfl, ?_⟩
      by_contra hplace
      have hparent : s.kernel.fds .parent .p2cWrite = true :=
        (h.parentFds _).mpr (h.parent.holds hplace).1
      exact absurd (hparent.symm.trans (hnone .parent)) (by decide)
  | byte _ hdata =>
      rw [h.data] at hdata
      simp only [Place.bytes] at hdata
      split at hdata
      · next hp2c => exact .inl ⟨by rw [(List.cons.inj hdata).1], hp2c⟩
      · cases hdata

/-! ## The steps that are left -/

/-- How many balls the parent has sent. -/
def ParentPc.sent (n : Nat) : ParentPc → Nat
  | .before _ => 0
  | .test i | .write i => i
  | .read i => i + 1
  | _ => n

/-- The parent's own steps: three for each exchange, and the test, the two calls of `close` and
`waitpid` at the end. -/
def ParentPc.left (n : Nat) : ParentPc → Nat
  | .before fds => fds.length + 3 * n + 5
  | .test i => 3 * (n - i) + 4
  | .write i => 3 * (n - i) + 3
  | .read i => 3 * (n - i) + 2
  | .after _ fds => fds.length + 1
  | _ => 0

/-- The child's own steps, apart from its exchanges. -/
def ChildPc.left : ChildPc → Nat
  | .before fds => fds.length + 5
  | .read => 4
  | .write => 5
  | .after fds => fds.length + 1
  | _ => 0

/-- The steps that both have left.  The child takes two for each ball that it has not read. -/
def State.left (s : State) (n : Nat) : Nat :=
  s.parent.left n + s.child.left + 2 * (n - s.parent.sent n + (s.kernel.data .p2c).length)

/-- An interrupted call is no step ahead. -/
def Act.ahead : Act → Option Proc
  | .step who => some who
  | .interrupted _ => none

theorem length_bytes_p2c (place : Place) :
    (place.bytes .p2c).length = if place = .p2c then 1 else 0 := by
  cases place <;> rfl

/-- The place of the ball in an earlier or later state of the pipes. -/
theorem bytes_put_p2c : Function.update Place.parent.bytes .p2c (Place.parent.bytes .p2c ++ ['x']) =
    Place.p2c.bytes := by
  funext pipe
  cases pipe <;> rfl

theorem bytes_take_p2c : Function.update Place.p2c.bytes .p2c (Place.p2c.bytes .p2c).tail =
    Place.child.bytes := by
  funext pipe
  cases pipe <;> rfl

theorem bytes_put_c2p : Function.update Place.child.bytes .c2p (Place.child.bytes .c2p ++ ['x']) =
    Place.c2p.bytes := by
  funext pipe
  cases pipe <;> rfl

theorem bytes_take_c2p : Function.update Place.c2p.bytes .c2p (Place.c2p.bytes .c2p).tail =
    Place.parent.bytes := by
  funext pipe
  cases pipe <;> rfl

/-! ## The parent's steps -/

theorem State.Inv.parentClose (h : s.Inv n place) {fds : List Fd} (hpc : s.parent = .before (fd :: fds)) :
    State.Inv { s with kernel := s.kernel.close .parent fd, parent := .before fds } n place := by
  have hfits := h.parent
  have hfds := h.parentFds
  rw [hpc] at hfits hfds
  cases place with
  | parent =>
      obtain ⟨hnodup, hwrite, hread⟩ := hfits
      rw [List.nodup_cons] at hnodup
      rw [List.mem_cons, not_or] at hwrite hread
      constructor
      case data => exact h.data
      case parent => exact ⟨hnodup.2, hwrite.2, hread.2⟩
      case child => exact h.child
      case parentFds =>
        intro fd'
        rw [Kernel.close_fds_self, hfds]
        exact ne_and_mem_cons (P := fun fd => fd = .p2cWrite ∨ fd = .c2pRead) hnodup.1
          (not_or.mpr ⟨Ne.symm hwrite.1, Ne.symm hread.1⟩)
      case childFds =>
        rw [Kernel.close_fds_of_ne _ _ (by decide)]
        exact h.childFds
      case ball => exact fun _ hstarted => hstarted.elim
      case copy => exact fun hplace => nomatch hplace
      case joined => exact fun hdone => nomatch hdone
  | _ => exact hfits.elim

theorem State.Inv.parentLastClose (h : s.Inv n place) {i : Nat} {fds : List Fd}
    (hpc : s.parent = .after i (fd :: fds)) :
    State.Inv { s with kernel := s.kernel.close .parent fd, parent := .after i fds } n place := by
  have hfits := h.parent
  have hfds := h.parentFds
  rw [hpc] at hfits hfds
  cases place with
  | finished =>
      obtain ⟨hi, hnodup⟩ := hfits
      rw [List.nodup_cons] at hnodup
      constructor
      case data => exact h.data
      case parent => exact ⟨hi, hnodup.2⟩
      case child => exact h.child
      case parentFds =>
        intro fd'
        rw [Kernel.close_fds_self, hfds]
        simpa [ParentPc.holds] using ne_and_mem_cons (P := fun _ => False) hnodup.1 id
      case childFds =>
        rw [Kernel.close_fds_of_ne _ _ (by decide)]
        exact h.childFds
      case ball => exact fun hplace => nomatch hplace
      case copy => exact fun hplace => nomatch hplace
      case joined => exact fun hdone => nomatch hdone
  | _ => exact hfits.elim

/-- The ball is with the parent before it is sent. -/
theorem ParentPc.Fits.eq_parent {p : ParentPc} (h : p.Fits n place) {i : Nat}
    (hp : p = .before [] ∨ p = .test i ∨ p = .write i) : place = .parent := by
  cases place with
  | parent => rfl
  | _ => obtain rfl | rfl | rfl := hp <;> exact h.elim

/-- A child that waits for the ball may wait for the end as well. -/
theorem ChildPc.Fits.of_parent {c : ChildPc} (h : c.Fits .parent)
    (hplace : place = .p2c ∨ place = .finished) : c.Fits place := by
  obtain rfl | rfl := hplace <;> cases c <;> first | exact h | exact h.elim

/-- The parent goes on in its loop. -/
theorem State.Inv.parentGoes (h : s.Inv n .parent) {p : ParentPc} (hfits : p.Fits n .parent)
    (hholds : ∀ fd, p.holds fd ↔ s.parent.holds fd) {ball : Char} (hball : ball = 'x') :
    State.Inv { s with parent := p, ball := ball } n .parent :=
  { h with
    parent := hfits
    parentFds := fun fd => (h.parentFds fd).trans (hholds fd).symm
    ball := fun _ _ => hball
    joined := fun hdone => by
      change p = .done at hdone
      rw [hdone] at hfits
      exact hfits.elim }

theorem State.Inv.parentEnough (h : s.Inv n place) {i : Nat} (hpc : s.parent = .test i)
    (hi : n ≤ i) (program : Program) :
    State.Inv { s with parent := .after i program.used } n .finished := by
  obtain rfl := h.parent.eq_parent (.inr (.inl hpc))
  have hfits := h.parent
  have hfds := h.parentFds
  rw [hpc] at hfits hfds
  constructor
  case data => exact h.data
  case parent => exact ⟨le_antisymm hfits hi, by cases program <;> decide⟩
  case child => exact h.child.of_parent (.inr rfl)
  case parentFds =>
    intro fd
    rw [hfds]
    cases program <;> cases fd <;> simp [ParentPc.holds, Program.used]
  case childFds => exact h.childFds
  case ball => exact fun hplace => nomatch hplace
  case copy => exact fun hplace => nomatch hplace
  case joined => exact fun hdone => nomatch hdone

theorem State.Inv.parentWrite (h : s.Inv n place) {i : Nat} (hpc : s.parent = .write i) :
    State.Inv { s with kernel := s.kernel.put .p2c s.ball, parent := .read i } n .p2c := by
  obtain rfl := h.parent.eq_parent (.inr (.inr hpc))
  have hfits := h.parent
  have hfds := h.parentFds
  have hball := h.ball rfl (by rw [hpc]; trivial)
  rw [hpc] at hfits hfds
  constructor
  case data =>
    show Function.update s.kernel.data .p2c (s.kernel.data .p2c ++ [s.ball]) = _
    rw [h.data, hball, bytes_put_p2c]
  case parent => exact hfits
  case child => exact h.child.of_parent (.inl rfl)
  case parentFds => exact hfds
  case childFds => exact h.childFds
  case ball => exact fun hplace => nomatch hplace
  case copy => exact fun hplace => nomatch hplace
  case joined => exact fun hdone => nomatch hdone

theorem State.Inv.parentRead (h : s.Inv n place) {i : Nat} (hpc : s.parent = .read i) {b : Char}
    (hr : s.kernel.Reads .parent .c2p (some (some b))) :
    State.Inv { s with kernel := s.kernel.take .c2p, ball := b, parent := .test (i + 1) } n
      .parent := by
  obtain ⟨hb, rfl⟩ := h.reads_parent hpc hr
  obtain rfl := Option.some.inj (Option.some.inj hb)
  have hfits := h.parent
  have hfds := h.parentFds
  have hchild := h.child
  rw [hpc] at hfits hfds
  constructor
  case data =>
    show Function.update s.kernel.data .c2p (s.kernel.data .c2p).tail = _
    rw [h.data, bytes_take_c2p]
  case parent => exact hfits
  case child =>
    cases hc : s.child with
    | read => trivial
    | _ =>
        rw [hc] at hchild
        exact hchild.elim
  case parentFds => exact hfds
  case childFds => exact h.childFds
  case ball => exact fun _ _ => rfl
  case copy => exact fun hplace => nomatch hplace
  case joined => exact fun hdone => nomatch hdone

theorem State.Inv.parentWait (h : s.Inv n place) {i : Nat} (hpc : s.parent = .after i [])
    (hended : s.child.ended) : State.Inv { s with parent := .done } n place := by
  have hfits := h.parent
  have hfds := h.parentFds
  have hchild := h.child
  rw [hpc] at hfits hfds
  cases place with
  | finished =>
      constructor
      case data => exact h.data
      case parent => trivial
      case child => exact hchild
      case parentFds =>
        intro fd
        rw [hfds]
        simp [ParentPc.holds]
      case childFds => exact h.childFds
      case ball => exact fun hplace => nomatch hplace
      case copy => exact fun hplace => nomatch hplace
      case joined =>
        intro _
        cases hc : s.child with
        | exited => rfl
        | died | killed =>
            rw [hc] at hchild
            exact hchild.elim
        | _ =>
            rw [hc] at hended
            cases hended
  | _ => exact hfits.elim

/-! ## The child's steps -/

/-- The ball is on its way to a child that has not come to its loop. -/
theorem ChildPc.Fits.before {c : ChildPc} {fds : List Fd} (h : c.Fits place) (hc : c = .before fds) :
    (fds.Nodup ∧ .p2cRead ∉ fds ∧ .c2pWrite ∉ fds) ∧
      ∀ {c' : ChildPc}, c'.Fits .parent → c'.Fits place := by
  subst hc
  cases place with
  | parent => exact ⟨h, id⟩
  | p2c => exact ⟨h, fun hc' => hc'.of_parent (.inl rfl)⟩
  | finished => exact ⟨h, fun hc' => hc'.of_parent (.inr rfl)⟩
  | _ => exact h.elim

/-- The parent is not past `waitpid` while the child runs. -/
theorem State.Inv.not_done (h : s.Inv n place) (hc : s.child ≠ .exited) : s.parent ≠ .done :=
  fun hdone => hc (h.joined hdone)

theorem State.Inv.childClose (h : s.Inv n place) {fds : List Fd} (hpc : s.child = .before (fd :: fds)) :
    State.Inv { s with kernel := s.kernel.close .child fd, child := .before fds } n place := by
  obtain ⟨⟨hnodup, hread, hwrite⟩, hplace⟩ := h.child.before hpc
  have hfds := h.childFds
  rw [hpc] at hfds
  rw [List.nodup_cons] at hnodup
  rw [List.mem_cons, not_or] at hwrite hread
  have hchild : (ChildPc.before fds).Fits place := hplace ⟨hnodup.2, hread.2, hwrite.2⟩
  constructor
  case data => exact h.data
  case parent => exact h.parent
  case child => exact hchild
  case parentFds =>
    rw [Kernel.close_fds_of_ne _ _ (by decide)]
    exact h.parentFds
  case childFds =>
    intro fd'
    rw [Kernel.close_fds_self, hfds]
    exact ne_and_mem_cons (P := fun fd => fd = .p2cRead ∨ fd = .c2pWrite) hnodup.1
      (not_or.mpr ⟨Ne.symm hread.1, Ne.symm hwrite.1⟩)
  case ball => exact h.ball
  case copy => exact h.copy
  case joined => exact fun hdone => absurd hdone (h.not_done (by rw [hpc]; exact fun hc => nomatch hc))

theorem State.Inv.childStart (h : s.Inv n place) (hpc : s.child = .before []) :
    State.Inv { s with child := .read } n place := by
  obtain ⟨-, hplace⟩ := h.child.before hpc
  have hfds := h.childFds
  rw [hpc] at hfds
  have hchild : ChildPc.read.Fits place := hplace trivial
  exact
    { h with
      child := hchild
      childFds := fun fd => (hfds fd).trans (by simp [ChildPc.holds])
      joined := fun hdone => absurd hdone (h.not_done (by rw [hpc]; exact fun hc => nomatch hc)) }

theorem State.Inv.childRead (h : s.Inv n place) (hpc : s.child = .read) {b : Char}
    (hr : s.kernel.Reads .child .p2c (some (some b))) :
    place = .p2c ∧
      State.Inv { s with kernel := s.kernel.take .p2c, copy := b, child := .write } n .child := by
  obtain ⟨hb, rfl⟩ | ⟨hb, -⟩ := h.reads_child hpc hr
  · obtain rfl := Option.some.inj (Option.some.inj hb)
    have hparent := h.parent
    have hfds := h.childFds
    rw [hpc] at hfds
    refine ⟨rfl, ?_⟩
    constructor
    case data =>
      show Function.update s.kernel.data .p2c (s.kernel.data .p2c).tail = _
      rw [h.data, bytes_take_p2c]
    case parent =>
      cases hp : s.parent with
      | read i =>
          rw [hp] at hparent
          exact hparent
      | _ =>
          rw [hp] at hparent
          exact hparent.elim
    case child => trivial
    case parentFds => exact h.parentFds
    case childFds => exact hfds
    case ball => exact fun hplace => nomatch hplace
    case copy => exact fun _ => rfl
    case joined =>
      exact fun hdone => absurd hdone (h.not_done (by rw [hpc]; exact fun hc => nomatch hc))
  · cases hb

theorem State.Inv.childReadEof (h : s.Inv n place) (hpc : s.child = .read)
    (hr : s.kernel.Reads .child .p2c (some none)) :
    State.Inv { s with child := .after [.p2cRead, .c2pWrite] } n place := by
  obtain ⟨hb, -⟩ | ⟨-, rfl⟩ := h.reads_child hpc hr
  · cases hb
  · have hfds := h.childFds
    rw [hpc] at hfds
    exact
      { h with
        child := show [Fd.p2cRead, .c2pWrite].Nodup by decide
        childFds := fun fd => (hfds fd).trans (by simp [ChildPc.holds])
        joined := fun hdone => absurd hdone (h.not_done (by rw [hpc]; exact fun hc => nomatch hc)) }

theorem State.Inv.childWrite (h : s.Inv n place) {capacity : Nat} (hpc : s.child = .write)
    (hr : s.kernel.Writes capacity .child .c2p .written) :
    place = .child ∧
      State.Inv { s with kernel := s.kernel.put .c2p s.copy, child := .read } n .c2p := by
  obtain ⟨-, rfl⟩ := h.writes_child hpc hr
  have hparent := h.parent
  have hfds := h.childFds
  rw [hpc] at hfds
  refine ⟨rfl, ?_⟩
  constructor
  case data =>
    show Function.update s.kernel.data .c2p (s.kernel.data .c2p ++ [s.copy]) = _
    rw [h.data, h.copy rfl, bytes_put_c2p]
  case parent =>
    cases hp : s.parent with
    | read i =>
        rw [hp] at hparent
        exact hparent
    | _ =>
        rw [hp] at hparent
        exact hparent.elim
  case child => trivial
  case parentFds => exact h.parentFds
  case childFds => exact hfds
  case ball => exact fun hplace => nomatch hplace
  case copy => exact fun hplace => nomatch hplace
  case joined =>
    exact fun hdone => absurd hdone (h.not_done (by rw [hpc]; exact fun hc => nomatch hc))

/-- The exchanges are over when the child closes its ends. -/
theorem ChildPc.Fits.after {c : ChildPc} {fds : List Fd} (h : c.Fits place) (hc : c = .after fds) :
    fds.Nodup ∧ place = .finished := by
  subst hc
  cases place with
  | finished => exact ⟨h, rfl⟩
  | _ => exact h.elim

theorem State.Inv.childLastClose (h : s.Inv n place) {fds : List Fd}
    (hpc : s.child = .after (fd :: fds)) :
    State.Inv { s with kernel := s.kernel.close .child fd, child := .after fds } n place := by
  obtain ⟨hnodup, rfl⟩ := h.child.after hpc
  have hfds := h.childFds
  rw [hpc] at hfds
  rw [List.nodup_cons] at hnodup
  constructor
  case data => exact h.data
  case parent => exact h.parent
  case child => exact hnodup.2
  case parentFds =>
    rw [Kernel.close_fds_of_ne _ _ (by decide)]
    exact h.parentFds
  case childFds =>
    intro fd'
    rw [Kernel.close_fds_self, hfds]
    simpa [ChildPc.holds] using ne_and_mem_cons (P := fun _ => False) hnodup.1 id
  case ball => exact h.ball
  case copy => exact h.copy
  case joined => exact fun hdone => absurd hdone (h.not_done (by rw [hpc]; exact fun hc => nomatch hc))

theorem State.Inv.childExit (h : s.Inv n place) (hpc : s.child = .after []) :
    State.Inv { s with kernel := s.kernel.exit .child, child := .exited } n place := by
  obtain ⟨-, rfl⟩ := h.child.after hpc
  constructor
  case data => exact h.data
  case parent => exact h.parent
  case child => trivial
  case parentFds =>
    rw [Kernel.exit_fds_of_ne _ (by decide)]
    exact h.parentFds
  case childFds =>
    intro fd
    rw [Kernel.exit_fds, Function.update_self]
    simp [ChildPc.holds]
  case ball => exact h.ball
  case copy => exact h.copy
  case joined => exact fun _ => rfl

/-! ## Every step -/

/-- A step keeps the ball in the game and leaves one step less. -/
theorem State.Inv.step {a : Act} (h : s.Inv setup.exchanges.toNat place) (hstep : Step setup s a s') :
    ∃ place', s'.Inv setup.exchanges.toNat place' ∧
      s'.left setup.exchanges.toNat + a.ahead.toList.length = s.left setup.exchanges.toNat := by
  have hparent := h.parent
  have hlen : (s.kernel.data .p2c).length = if place = .p2c then 1 else 0 := by
    rw [h.data, length_bytes_p2c]
  cases hstep with
  | parentClose hpc =>
      refine ⟨_, h.parentClose hpc, ?_⟩
      simp only [State.left, hpc, ParentPc.left, ParentPc.sent, Act.ahead, List.length_cons,
        Kernel.close_data, Option.toList_some, List.length_nil]
      omega
  | parentStart hpc =>
      obtain rfl := h.parent.eq_parent (i := 0) (.inl hpc)
      refine ⟨_, h.parentGoes (p := .test 0) (Nat.zero_le _) ?_ rfl, ?_⟩
      · intro fd
        simp [hpc, ParentPc.holds]
      · simp only [State.left, hpc, ParentPc.left, ParentPc.sent, Act.ahead, List.length_nil,
        Option.toList_some, List.length_cons]
        omega
  | @parentMore i hpc hi =>
      obtain rfl := h.parent.eq_parent (.inr (.inl hpc))
      have hlt : i < setup.exchanges.toNat := Int.lt_toNat.mpr hi
      refine ⟨_, h.parentGoes (p := .write i) hlt ?_ (h.ball rfl (by rw [hpc]; trivial)), ?_⟩
      · intro fd
        rw [hpc]
        rfl
      · simp only [State.left, hpc, ParentPc.left, ParentPc.sent, Act.ahead, Option.toList_some,
        List.length_cons, List.length_nil]
        omega
  | @parentEnough i hpc hi =>
      rw [hpc] at hparent
      have hle : setup.exchanges.toNat ≤ i := Nat.le_of_not_lt fun hlt => hi (Int.lt_toNat.mp hlt)
      refine ⟨_, h.parentEnough hpc hle _, ?_⟩
      have hused : setup.program.used.length = 2 := by cases setup.program <;> rfl
      simp only [State.left, hpc, ParentPc.left, ParentPc.sent, Act.ahead, hused,
        Option.toList_some, List.length_cons, List.length_nil]
      omega
  | @parentWrite i hpc hw =>
      have hi := h.parent
      obtain rfl := h.parent.eq_parent (.inr (.inr hpc))
      rw [hpc] at hi
      change i < _ at hi
      refine ⟨_, h.parentWrite hpc, ?_⟩
      simp only [State.left, hpc, ParentPc.left, ParentPc.sent, Act.ahead, Kernel.put_data,
        Function.update_self, List.length_append, Option.toList_some,
        List.length_cons, List.length_nil]
      omega
  | parentWriteError hpc hw => exact absurd (h.writes_parent hpc hw) (by decide)
  | parentWriteBroken hpc hw => exact absurd (h.writes_parent hpc hw) (by decide)
  | @parentRead i b hpc hr =>
      refine ⟨_, h.parentRead hpc hr, ?_⟩
      have hi : i < setup.exchanges.toNat := by
        obtain ⟨-, rfl⟩ := h.reads_parent hpc hr
        rw [hpc] at hparent
        exact hparent
      have hdata : Function.update s.kernel.data .c2p (s.kernel.data .c2p).tail .p2c =
          s.kernel.data .p2c := Function.update_of_ne (by decide) ..
      simp only [State.left, hpc, ParentPc.left, ParentPc.sent, Act.ahead, Kernel.take_data, hdata,
        Option.toList_some, List.length_cons, List.length_nil]
      omega
  | parentReadEof hpc hr => exact absurd (h.reads_parent hpc hr).1 (by decide)
  | parentReadError hpc hr => exact absurd (h.reads_parent hpc hr).1 (by decide)
  | parentLastClose hpc =>
      refine ⟨_, h.parentLastClose hpc, ?_⟩
      simp only [State.left, hpc, ParentPc.left, ParentPc.sent, Act.ahead, List.length_cons,
        Kernel.close_data, Option.toList_some, List.length_nil]
      omega
  | parentWait hpc hended =>
      refine ⟨_, h.parentWait hpc hended, ?_⟩
      simp only [State.left, hpc, ParentPc.left, ParentPc.sent, Act.ahead, List.length_nil,
        Option.toList_some, List.length_cons]
      omega
  | parentInterrupted => exact ⟨_, h, rfl⟩
  | childClose hpc =>
      refine ⟨_, h.childClose hpc, ?_⟩
      simp only [State.left, hpc, ChildPc.left, Act.ahead, List.length_cons, Kernel.close_data,
        Option.toList_some, List.length_nil]
      omega
  | childStart hpc =>
      refine ⟨_, h.childStart hpc, ?_⟩
      simp only [State.left, hpc, ChildPc.left, Act.ahead, List.length_nil, Option.toList_some,
        List.length_cons]
      omega
  | childRead hpc hr =>
      obtain ⟨rfl, hinv⟩ := h.childRead hpc hr
      refine ⟨_, hinv, ?_⟩
      simp only [State.left, hpc, ChildPc.left, Act.ahead, Kernel.take_data, Function.update_self,
        List.length_tail, hlen, if_pos, Option.toList_some, List.length_cons, List.length_nil]
      omega
  | childReadEof hpc hr =>
      refine ⟨_, h.childReadEof hpc hr, ?_⟩
      simp only [State.left, hpc, ChildPc.left, Act.ahead, List.length_cons, List.length_nil,
        Option.toList_some]
      omega
  | childReadError hpc hr => exact absurd (h.reads_child hpc hr) (by simp)
  | childWrite hpc hw =>
      obtain ⟨rfl, hinv⟩ := h.childWrite hpc hw
      refine ⟨_, hinv, ?_⟩
      have hdata : Function.update s.kernel.data .c2p (s.kernel.data .c2p ++ [s.copy]) .p2c =
          s.kernel.data .p2c := Function.update_of_ne (by decide) ..
      simp only [State.left, hpc, ChildPc.left, Act.ahead, Kernel.put_data, hdata,
        Option.toList_some, List.length_cons, List.length_nil]
      omega
  | childWriteError hpc hw => exact absurd (h.writes_child hpc hw).1 (by decide)
  | childWriteBroken hpc hw => exact absurd (h.writes_child hpc hw).1 (by decide)
  | childLastClose hpc =>
      refine ⟨_, h.childLastClose hpc, ?_⟩
      simp only [State.left, hpc, ChildPc.left, Act.ahead, List.length_cons, Kernel.close_data,
        Option.toList_some, List.length_nil]
      omega
  | childExit hpc =>
      refine ⟨_, h.childExit hpc, ?_⟩
      simp only [State.left, hpc, ChildPc.left, Act.ahead, Option.toList_some, List.length_cons,
        List.length_nil, Kernel.exit_data]
      omega
  | childInterrupted => exact ⟨_, h, rfl⟩

theorem inv_invariant (setup : Setup) :
    (machine setup).Invariant fun s => ∃ place, s.Inv setup.exchanges.toNat place where
  start _ h := ⟨.parent, inv_start h⟩
  next _ _ _ _ := fun ⟨_, hs⟩ h => (hs.step h).imp fun _ hs' => hs'.1

/-! ## Safety -/

/-- Neither process fails: no call reports an error, no write meets a closed pipe and no read of the
parent meets the end of the data, so the loop runs to its end.  There is never more than one byte in the
pipes, and it is the one that the parent sent first.  When the parent is through, the child has exited,
the pipes are empty and every descriptor is closed. -/
theorem exchange_safe (hs : (machine setup).Reachable s) :
    (s.parent ≠ .died ∧ s.parent ≠ .killed ∧ s.child ≠ .died ∧ s.child ≠ .killed) ∧
    (s.kernel.data .p2c ++ s.kernel.data .c2p = [] ∨ s.kernel.data .p2c ++ s.kernel.data .c2p = ['x']) ∧
    (∀ i fds, s.parent = .after i fds → i = setup.exchanges.toNat) ∧
    (s.parent = .done → s.child = .exited ∧ (∀ who fd, s.kernel.fds who fd = false) ∧
      ∀ pipe, s.kernel.data pipe = []) := by
  obtain ⟨place, h⟩ := (inv_invariant setup).reachable hs
  have hparent := h.parent
  have hchild := h.child
  refine ⟨⟨?_, ?_, ?_, ?_⟩, ?_, ?_, ?_⟩
  · intro hpc
    rw [hpc] at hparent
    cases place <;> exact hparent
  · intro hpc
    rw [hpc] at hparent
    cases place <;> exact hparent
  · intro hpc
    rw [hpc] at hchild
    cases place <;> exact hchild
  · intro hpc
    rw [hpc] at hchild
    cases place <;> exact hchild
  · rw [h.data]
    cases place <;> simp [Place.bytes]
  · intro i fds hpc
    rw [hpc] at hparent
    cases place with
    | finished => exact hparent.1
    | _ => exact hparent.elim
  · intro hdone
    have hexited := h.joined hdone
    have hparentFds := h.parentFds
    have hchildFds := h.childFds
    rw [hdone] at hparent hparentFds
    rw [hexited] at hchildFds
    refine ⟨hexited, ?_, ?_⟩
    · intro who fd
      cases who with
      | parent => exact Bool.eq_false_iff.mpr fun hopen => (hparentFds fd).mp hopen
      | child => exact Bool.eq_false_iff.mpr fun hopen => (hchildFds fd).mp hopen
    · intro pipe
      rw [h.data]
      cases place with
      | finished => cases pipe <;> rfl
      | _ => exact hparent.elim

/-- One exchange, with a child that is slow to start. -/
theorem exchange_safe_one : ∃ s, (machine ⟨.main, 1, 1, by decide⟩).Reachable s ∧ s.parent = .done ∧
    s.child = .exited ∧ ∀ pipe, s.kernel.data pipe = [] := by
  have h0 : (machine ⟨.main, 1, 1, by decide⟩).Reachable
      ⟨⟨fun _ _ => true, fun _ => []⟩, .before [.p2cRead, .c2pWrite], .before [.p2cWrite, .c2pRead],
        'a', 'a'⟩ := .init ⟨rfl, rfl, rfl⟩
  have h1 := h0.step (Step.parentClose rfl)
  have h2 := h1.step (Step.parentClose rfl)
  have h3 := h2.step (Step.parentStart rfl)
  have h4 := h3.step (Step.parentMore rfl (by decide))
  have h5 := h4.step (Step.parentWrite rfl (.ok (u := .child) rfl rfl (by decide)))
  have h6 := h5.step (Step.childClose rfl)
  have h7 := h6.step (Step.childClose rfl)
  have h8 := h7.step (Step.childStart rfl)
  have h9 := h8.step (Step.childRead rfl (.byte rfl rfl))
  have h10 := h9.step (Step.childWrite rfl (.ok (u := .parent) rfl rfl (by decide)))
  have h11 := h10.step (Step.parentRead rfl (.byte rfl rfl))
  have h12 := h11.step (Step.parentEnough rfl (by decide))
  have h13 := h12.step (Step.parentLastClose rfl)
  have h14 := h13.step (Step.parentLastClose rfl)
  have h15 := h14.step (Step.childReadEof rfl (.eof rfl rfl (by intro u; cases u <;> rfl)))
  have h16 := h15.step (Step.childLastClose rfl)
  have h17 := h16.step (Step.childLastClose rfl)
  have h18 := h17.step (Step.childExit rfl)
  have h19 := h18.step (Step.parentWait rfl rfl)
  obtain ⟨-, -, -, hdone⟩ := exchange_safe h19
  exact ⟨_, h19, rfl, (hdone rfl).1, (hdone rfl).2.2⟩

/-! ## Termination -/

/-- Until the parent is through, one of the two can go on. -/
theorem State.Inv.progress (h : s.Inv setup.exchanges.toNat place) (hpc : s.parent ≠ .done) :
    ∃ who s', Step setup s (.step who) s' := by
  have hparent := h.parent
  have hchild := h.child
  have hdata := congrFun h.data
  cases hp : s.parent with
  | before fds =>
      cases fds with
      | nil => exact ⟨_, _, .parentStart hp⟩
      | cons fd fds => exact ⟨_, _, .parentClose hp⟩
  | test i =>
      by_cases hi : (i : Int) < setup.exchanges
      · exact ⟨_, _, .parentMore hp hi⟩
      · exact ⟨_, _, .parentEnough hp hi⟩
  | write i =>
      obtain rfl := h.parent.eq_parent (.inr (.inr hp))
      refine ⟨_, _, .parentWrite hp (.ok (u := .child) ?_ ?_ ?_)⟩
      · exact (h.parentFds _).mpr (h.parent.holds (by decide)).1
      · exact (h.childFds _).mpr (h.child.holds (by decide)).1
      · rw [hdata]
        exact setup.room
  | read i =>
      rw [hp] at hparent
      cases place with
      | p2c =>
          cases hc : s.child with
          | before fds =>
              cases fds with
              | nil => exact ⟨_, _, .childStart hc⟩
              | cons fd fds => exact ⟨_, _, .childClose hc⟩
          | read =>
              refine ⟨_, _, .childRead hc (.byte ?_ (hdata .p2c))⟩
              exact (h.childFds _).mpr (h.child.holds (by decide)).1
          | _ =>
              rw [hc] at hchild
              exact hchild.elim
      | child =>
          cases hc : s.child with
          | write =>
              refine ⟨_, _, .childWrite hc (.ok (u := .parent) ?_ ?_ ?_)⟩
              · exact (h.childFds _).mpr (h.child.holds (by decide)).2
              · exact (h.parentFds _).mpr (h.parent.holds (by decide)).2
              · rw [hdata]
                exact setup.room
          | _ =>
              rw [hc] at hchild
              exact hchild.elim
      | c2p =>
          refine ⟨_, _, .parentRead hp (.byte ?_ (hdata .c2p))⟩
          exact (h.parentFds _).mpr (h.parent.holds (by decide)).2
      | _ => exact hparent.elim
  | after i fds =>
      rw [hp] at hparent
      cases fds with
      | cons fd fds => exact ⟨_, _, .parentLastClose hp⟩
      | nil =>
          -- The parent waits for a child that has nothing left to wait for.
          cases place with
          | finished =>
              cases hc : s.child with
              | before fds =>
                  cases fds with
                  | nil => exact ⟨_, _, .childStart hc⟩
                  | cons fd fds => exact ⟨_, _, .childClose hc⟩
              | read =>
                  have hparentFds := h.parentFds .p2cWrite
                  have hchildFds := h.childFds
                  rw [hp] at hparentFds
                  rw [hc] at hchildFds
                  refine ⟨_, _, .childReadEof hc (.eof ?_ (hdata .p2c) ?_)⟩
                  · exact (hchildFds _).mpr (.inl rfl)
                  · intro u
                    cases u with
                    | parent =>
                        exact Bool.eq_false_iff.mpr fun hopen => nomatch hparentFds.mp hopen
                    | child =>
                        refine Bool.eq_false_iff.mpr fun hopen => ?_
                        exact absurd ((hchildFds .p2cWrite).mp hopen) (by simp [ChildPc.holds])
              | after fds =>
                  cases fds with
                  | nil => exact ⟨_, _, .childExit hc⟩
                  | cons fd fds => exact ⟨_, _, .childLastClose hc⟩
              | exited => exact ⟨_, _, .parentWait hp (by rw [hc]; rfl)⟩
              | _ =>
                  rw [hc] at hchild
                  exact hchild.elim
          | _ => exact hparent.elim
  | done => exact absurd hp hpc
  | died | killed =>
      rw [hp] at hparent
      cases place <;> exact hparent.elim

/-- Nothing is left to do exactly when the parent is through. -/
theorem State.Inv.left_eq_zero_iff (h : s.Inv n place) : s.left n = 0 ↔ s.parent = .done := by
  have hparent := h.parent
  constructor
  · intro hleft
    have hzero : s.parent.left n = 0 := by
      rw [State.left] at hleft
      omega
    cases hp : s.parent with
    | done => rfl
    | died | killed =>
        rw [hp] at hparent
        cases place <;> exact hparent.elim
    | _ =>
        rw [hp, ParentPc.left] at hzero
        omega
  · intro hdone
    have hlen : (s.kernel.data .p2c).length = 0 := by
      rw [hdone] at hparent
      rw [h.data]
      cases place with
      | finished => rfl
      | _ => exact hparent.elim
    rw [State.left, hlen, hdone, h.joined hdone]
    simp [ParentPc.left, ParentPc.sent, ChildPc.left]

theorem left_start (h : (machine setup).init s) : s.left n = 5 * n + 14 := by
  obtain ⟨hkernel, hparent, hchild⟩ := h
  have hunused : setup.program.unused.length = 2 := by cases setup.program <;> rfl
  rw [State.left, hkernel, hparent, hchild]
  simp only [ParentPc.left, ParentPc.sent, ChildPc.left, hunused, List.length_cons, List.length_nil]
  omega

/-- The steps taken and the steps left, along a run. -/
theorem left_run {m : Nat} (r : Run (machine setup) m) :
    ∀ {k : Nat}, k ≤ m → (r.st k).left setup.exchanges.toNat + (r.seen Act.ahead k).length =
      5 * setup.exchanges.toNat + 14 := by
  intro k hk
  induction k with
  | zero => exact left_start r.start
  | succ k ih =>
      obtain ⟨place, h⟩ := (inv_invariant setup).reachable (r.reachable (k := k) (by omega))
      obtain ⟨-, -, hleft⟩ := h.step (r.next k (by omega))
      rw [r.seen_succ, List.length_append, ← ih (by omega), ← hleft]
      omega

/-- However the two processes are scheduled, there is no deadlock and no run without end: apart from
interrupted calls a run takes `5 * exchanges + 14` steps, it can go on until then, and then the parent is
through. -/
theorem exchange_terminates {m : Nat} (r : Run (machine setup) m) :
    (r.seen Act.ahead m).length ≤ 5 * setup.exchanges.toNat + 14 ∧
    ((r.seen Act.ahead m).length = 5 * setup.exchanges.toNat + 14 ↔ (r.st m).parent = .done) ∧
    ((∃ who s', Step setup (r.st m) (.step who) s') ↔ (r.st m).parent ≠ .done) := by
  obtain ⟨place, h⟩ := (inv_invariant setup).reachable (r.reachable le_rfl)
  have hleft := left_run r le_rfl
  have hdone := h.left_eq_zero_iff
  refine ⟨by omega, ?_, ?_⟩
  · rw [← hdone]
    omega
  · constructor
    · rintro ⟨who, s', hstep⟩ hpc
      obtain ⟨-, -, hless⟩ := h.step hstep
      rw [hdone.mpr hpc] at hless
      exact absurd hless (by simp [Act.ahead])
    · exact h.progress

end PingPong
