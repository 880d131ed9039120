import SystemsDrills.Lib.Stores
import SystemsDrills.LinkedList.Merge

/-!
# `build_array`

Both `Interview/leetcode/05-reverse-linked-list.c` and `06-merge-two-sorted-lists.c` have a helper
`build_array` that makes a list from an array.  The first keeps the addresses of the nodes in a table
with a NULL at its end and links them from there.  The second stores each new node behind `tail`,
which at first is a `dummy` on the stack.

Memory that was just allocated holds nothing, and neither does a local variable before it is stored
to.  A call stops at a read of a pointer that was not stored (`Stop.indeterminate`) and at an access
through NULL or out of range (`Stop.invalid`).  `malloc i` is what the call of `malloc` number `i`
returns.

With an array that is not empty both leave the same memory and the same pointer.  With an empty one
the first returns the NULL of its table, and the second reads a `dummy.next` that was never stored.
-/

namespace LinkedList

open Stores

/-! ## The code -/

/-- `struct ListNode`, with the fields that were stored. -/
structure Slot (A : Type) where
  val : Option Int32
  next : Option (Option A)
deriving DecidableEq

/-- The nodes that are in use. -/
abbrev Memory (A : Type) := A → Option (Slot A)

/-- Why a call does not return: `exit(1)`, or something that C does not define. -/
inductive Stop where
  | exit
  | indeterminate
  | invalid
deriving DecidableEq

/-- The value of a variable. -/
def load {α : Type} : Option α → Except Stop α
  | none => .error .indeterminate
  | some x => .ok x

/-- `nums[i]`, for an index below the length. -/
def num (nums : List Int32) (i : Nat) : Int32 := nums[i]?.getD 0

/-- The pointers of a table. -/
abbrev Table (A : Type) := List (Option (Option A))

/-- `addr[i]`. -/
def Table.read {A : Type} (addr : Table A) (i : Nat) : Except Stop (Option A) :=
  match addr[i]? with
  | none => .error .invalid
  | some p => load p

/-- The memory and the variables of the second helper. -/
structure BuildState (A : Type) where
  memory : Memory A
  /-- `dummy.next`. -/
  dummy : Option (Option A)
  tail : Ref A

section

variable {A : Type} [DecidableEq A]

/-- A call of `malloc` with this result. -/
def alloc (m : Memory A) : Option A → Memory A
  | none => m
  | some a => Function.update m a (some ⟨none, none⟩)

/-- A store to a field of `*p`. -/
def storeAt (m : Memory A) (p : Option A) (store : Slot A → Slot A) : Except Stop (Memory A) :=
  match p with
  | none => .error .invalid
  | some a =>
      match m a with
      | none => .error .invalid
      | some slot => .ok (Function.update m a (some (store slot)))

/-- `p->val = v`. -/
def storeVal (m : Memory A) (p : Option A) (v : Int32) : Except Stop (Memory A) :=
  storeAt m p fun slot => { slot with val := some v }

/-- `p->next = q`. -/
def storeNext (m : Memory A) (p q : Option A) : Except Stop (Memory A) :=
  storeAt m p fun slot => { slot with next := some q }

namespace Reverse

/-- The first loop. -/
def allocate (malloc : Nat → Option A) (s : Memory A × Table A) (i : Nat) :
    Except Stop (Memory A × Table A) :=
  match malloc i with
  | none => .error .exit
  | some node => .ok (alloc s.1 (some node), s.2.set i (some (some node)))

/-- The second loop. -/
def link (nums : List Int32) (addr : Table A) (m : Memory A) (i : Nat) :
    Except Stop (Memory A) := do
  let m ← storeVal m (← addr.read i) (num nums i)
  storeNext m (← addr.read i) (← addr.read (i + 1))

/-- `build_array` of `05-reverse-linked-list.c`: the memory after it, and what it returns. -/
def buildArray (malloc : Nat → Option A) (m : Memory A) (nums : List Int32) :
    Except Stop (Memory A × Option A) := do
  let s ← (List.range nums.length).foldlM (allocate malloc)
    (m, List.replicate (nums.length + 1) none)
  let addr : Table A := s.2.set nums.length (some none)
  let m ← (List.range nums.length).foldlM (link nums addr) s.1
  let head ← addr.read 0
  return (m, head)

end Reverse

namespace Merge

/-- `tail->next`. -/
def next (s : BuildState A) : Except Stop (Option A) :=
  match s.tail with
  | .dummy => load s.dummy
  | .node a =>
      match s.memory a with
      | none => .error .invalid
      | some slot => load slot.next

/-- `tail->next = p`. -/
def setNext (s : BuildState A) (p : Option A) : Except Stop (BuildState A) :=
  match s.tail with
  | .dummy => .ok { s with dummy := some p }
  | .node a => do
      let memory ← storeNext s.memory (some a) p
      return { s with memory }

/-- The body of the loop. -/
def append (malloc : Nat → Option A) (nums : List Int32) (s : BuildState A) (index : Nat) :
    Except Stop (BuildState A) := do
  let s ← setNext { s with memory := alloc s.memory (malloc index) } (malloc index)
  match ← next s with
  | none => .error .exit
  | some node =>
      let s ← setNext { s with tail := .node node } none
      let memory ← storeVal s.memory (some node) (num nums index)
      return { s with memory }

/-- `build_array` of `06-merge-two-sorted-lists.c`. -/
def buildArray (malloc : Nat → Option A) (m : Memory A) (nums : List Int32) :
    Except Stop (Memory A × Option A) := do
  let s ← (List.range nums.length).foldlM (append malloc nums) ⟨m, none, .dummy⟩
  let head ← load s.dummy
  return (s.memory, head)

end Merge

end

/-! ## What a call should do -/

variable {A : Type}

/-- The pointer heads a list with these nodes and these values, all of which were stored, and which
ends in NULL. -/
inductive Holds (m : Memory A) : Option A → List A → List Int32 → Prop where
  | nil : Holds m none [] []
  | cons {a : A} {v : Int32} {p : Option A} {nodes : List A} {vs : List Int32} :
      m a = some ⟨some v, some p⟩ → Holds m p nodes vs → Holds m (some a) (a :: nodes) (v :: vs)

/-- The call returns a list of different new nodes with the values of the array, and no other node
has changed. -/
def Builds (m : Memory A) (nums : List Int32) (r : Except Stop (Memory A × Option A)) : Prop :=
  ∃ m' p nodes, r = .ok (m', p) ∧ Holds m' p nodes nums ∧ nodes.Nodup ∧ (∀ a ∈ nodes, m a = none) ∧
    ∀ a ∉ nodes, m' a = m a

/-- Both helpers build the array, and they do the same. -/
structure Faithful [DecidableEq A] (malloc : Nat → Option A) (m : Memory A) (nums : List Int32) :
    Prop where
  reverse : Builds m nums (Reverse.buildArray malloc m nums)
  merge : Builds m nums (Merge.buildArray malloc m nums)
  agree : Reverse.buildArray malloc m nums = Merge.buildArray malloc m nums

/-- The first `n` calls of `malloc` return different nodes that are not in use. -/
structure Grants (malloc : Nat → Option A) (m : Memory A) (node : Nat → A) (n : Nat) : Prop where
  answer : ∀ i < n, malloc i = some (node i)
  inj : ∀ i < n, ∀ j < n, node i = node j → i = j
  fresh : ∀ i < n, m (node i) = none

variable {malloc : Nat → Option A} {m : Memory A} {node : Nat → A} {nums vs : List Int32}
  {p : Option A} {nodes : List A} {i k n : Nat} {a : A}

/-- The memory as `reverseList` and `mergeTwoLists` see it, with anything where nothing was stored. -/
def Memory.heap (m : Memory A) : Heap A := fun a =>
  match m a with
  | none => ⟨0, none⟩
  | some slot => ⟨slot.val.getD 0, slot.next.getD none⟩

theorem Holds.isList (h : Holds m p nodes vs) :
    IsList m.heap p nodes ∧ nodes.map (fun a => (m.heap a).val) = vs := by
  induction h with
  | nil => exact ⟨.nil, rfl⟩
  | @cons a v p nodes vs hslot _ ih =>
      obtain ⟨hlist, hvals⟩ := ih
      have hnode : m.heap a = ⟨v, p⟩ := by
        rw [Memory.heap, hslot]
        rfl
      refine ⟨.cons ?_, ?_⟩
      · rw [hnode]
        exact hlist
      · rw [List.map_cons, hnode, hvals]

/-! ## The memory that is built -/

/-- A pointer to node `i`, or NULL behind the last one. -/
def ptr (node : Nat → A) (n i : Nat) : Option A := if i < n then some (node i) else none

/-- What node `i` should hold. -/
def filled (node : Nat → A) (nums : List Int32) (i : Nat) : Option (Slot A) :=
  some ⟨some (num nums i), some (ptr node nums.length (i + 1))⟩

theorem ptr_of_lt (h : i < n) : ptr node n i = some (node i) := if_pos h

theorem ptr_of_le (h : n ≤ i) : ptr node n i = none := if_neg (not_lt.mpr h)

theorem Grants.ne_succ (hm : Grants malloc m node n) (hi : i + 1 < n) : node i ≠ node (i + 1) :=
  fun heq => Nat.ne_of_lt (Nat.lt_succ_self i) (hm.inj i (Nat.lt_of_succ_lt hi) (i + 1) hi heq)

/-- The table of the first helper after `k` rounds of its first loop. -/
def table (node : Nat → A) (n k : Nat) : Table A :=
  (List.range (n + 1)).map fun i => if i < k then some (some (node i)) else none

theorem getElem?_table :
    (table node n k)[i]? =
      if i < n + 1 then some (if i < k then some (some (node i)) else none) else none := by
  rw [table, List.getElem?_map]
  split
  · next hi => rw [List.getElem?_range hi, Option.map_some]
  · next hi =>
    have hlen : (List.range (n + 1)).length ≤ i := by
      rw [List.length_range]
      exact not_lt.mp hi
    rw [List.getElem?_eq_none hlen, Option.map_none]

theorem length_table : (table node n k).length = n + 1 := by
  rw [table, List.length_map, List.length_range]

theorem table_zero (node : Nat → A) (n : Nat) : table node n 0 = List.replicate (n + 1) none := by
  refine List.eq_replicate_iff.mpr ⟨length_table, fun p hp => ?_⟩
  obtain ⟨i, -, rfl⟩ := List.mem_map.mp hp
  rfl

theorem table_succ (hk : k < n) :
    (table node n k).set k (some (some (node k))) = table node n (k + 1) := by
  refine List.ext_getElem? fun i => ?_
  rw [List.getElem?_set, length_table, getElem?_table, getElem?_table]
  by_cases hik : k = i
  · subst hik
    simp [hk.trans (Nat.lt_succ_self n)]
  · have hiff : i < k + 1 ↔ i < k := by omega
    simp only [hik, if_false, hiff]

/-- With the NULL at its end the table has a pointer to each node. -/
theorem read_table (hi : i ≤ n) :
    Table.read ((table node n n).set n (some none)) i = .ok (ptr node n i) := by
  rw [Table.read, List.getElem?_set, length_table, getElem?_table]
  rcases Nat.lt_or_eq_of_le hi with hlt | rfl
  · simp only [(Nat.ne_of_lt hlt).symm, if_false, if_pos (Nat.lt_succ_of_le hi), if_pos hlt,
      ptr_of_lt hlt]
    rfl
  · simp only [if_true, if_pos (Nat.lt_succ_self i), ptr_of_le le_rfl]
    rfl

variable [DecidableEq A]

/-- The list from node `i` on. -/
theorem holds_written (hm : Grants malloc m node nums.length) :
    ∀ d i, i + d = nums.length →
      Holds (written node (filled node nums) m nums.length) (ptr node nums.length i)
        ((List.range' i d).map node) (nums.drop i)
  | 0, i, hi => by
      have hi : nums.length = i := hi.symm
      rw [ptr_of_le hi.le, List.drop_eq_nil_of_le hi.le]
      exact .nil
  | d + 1, i, hi => by
      have hlt : i < nums.length := by omega
      have hnum : num nums i = nums[i] := by rw [num, List.getElem?_eq_getElem hlt, Option.getD_some]
      rw [ptr_of_lt hlt, List.drop_eq_getElem_cons hlt, ← hnum]
      exact .cons (written_at hm.inj hlt) (holds_written hm d (i + 1) (by omega))

/-- What both helpers should leave is a list of the array. -/
theorem builds_written (hm : Grants malloc m node nums.length) :
    Builds m nums (.ok (written node (filled node nums) m nums.length, ptr node nums.length 0)) := by
  have hholds := holds_written hm nums.length 0 (Nat.zero_add _)
  rw [List.drop_zero, ← List.range_eq_range'] at hholds
  refine ⟨_, _, _, rfl, hholds, hholds.isList.1.nodup, fun a ha => ?_, fun a ha => ?_⟩
  · obtain ⟨i, hi, rfl⟩ := List.mem_map.mp ha
    exact hm.fresh i (List.mem_range.mp hi)
  · refine written_of_ne fun i hi heq => ha ?_
    exact List.mem_map.mpr ⟨i, List.mem_range.mpr hi, heq.symm⟩

theorem storeAt_of_some {slot : Slot A} (h : m a = some slot) (store : Slot A → Slot A) :
    storeAt m (some a) store = .ok (Function.update m a (some (store slot))) := by
  simp only [storeAt, h]

/-- Two stores fill a new node. -/
theorem storeAt_update (m : Memory A) (a : A) (slot : Slot A) (store : Slot A → Slot A) :
    storeAt (Function.update m a (some slot)) (some a) store =
      .ok (Function.update m a (some (store slot))) := by
  rw [storeAt_of_some (Function.update_self ..), Function.update_idem]

/-! ## The helper with a table -/

namespace Reverse

/-- The nodes after `k` rounds of the first loop. -/
def blank (node : Nat → A) (m : Memory A) (k : Nat) : Memory A :=
  written node (fun _ => some ⟨none, none⟩) m k

theorem foldlM_allocate (hm : Grants malloc m node n) :
    (List.range n).foldlM (allocate malloc) (m, List.replicate (n + 1) none) =
      .ok (blank node m n, table node n n) := by
  have hstep : ∀ i < n, allocate malloc (blank node m i, table node n i) i =
      .ok (blank node m (i + 1), table node n (i + 1)) := by
    intro i hi
    rw [allocate, hm.answer i hi, ← table_succ hi]
    rfl
  rw [← table_zero node n]
  exact foldlM_range (fun i => (blank node m i, table node n i)) hstep

theorem foldlM_link (hm : Grants malloc m node nums.length) :
    (List.range nums.length).foldlM
        (link nums ((table node nums.length nums.length).set nums.length (some none)))
        (blank node m nums.length) =
      .ok (written node (filled node nums) (blank node m nums.length) nums.length) := by
  refine foldlM_range (written node (filled node nums) (blank node m nums.length)) fun i hi => ?_
  have hnode : written node (filled node nums) (blank node m nums.length) i (node i) =
      some ⟨none, none⟩ := by
    rw [written_of_ne fun j hj heq => Nat.ne_of_gt hj (hm.inj i hi j (hj.trans hi) heq)]
    exact written_at hm.inj hi
  rw [link, read_table hi.le, read_table hi, ptr_of_lt hi]
  simp only [ok_bind, storeVal, storeNext, storeAt_of_some hnode, storeAt_update]
  rfl

theorem buildArray_eq (hm : Grants malloc m node nums.length) :
    buildArray malloc m nums =
      .ok (written node (filled node nums) m nums.length, ptr node nums.length 0) := by
  have hmem : written node (filled node nums) (blank node m nums.length) nums.length =
      written node (filled node nums) m nums.length :=
    funext fun a => written_congr fun hne => written_of_ne hne
  rw [buildArray, foldlM_allocate hm]
  simp only [ok_bind, foldlM_link hm, read_table (Nat.zero_le _), hmem]
  rfl

/-- The helper with a table is right with every array. -/
theorem builds_buildArray (hm : Grants malloc m node nums.length) :
    Builds m nums (buildArray malloc m nums) := by
  rw [buildArray_eq hm]
  exact builds_written hm

end Reverse

/-! ## The helper with a tail -/

namespace Merge

/-- The state after `k` rounds: the last node has no successor yet. -/
def after (node : Nat → A) (nums : List Int32) (m : Memory A) : Nat → BuildState A
  | 0 => ⟨m, none, .dummy⟩
  | k + 1 =>
      { memory := Function.update (written node (filled node nums) m k) (node k)
          (some ⟨some (num nums k), some none⟩)
        dummy := some (some (node 0))
        tail := .node (node k) }

/-- What a round does once the new node is stored behind `tail`. -/
theorem append_of_setNext {s t : BuildState A} {b : Memory A} (hmalloc : malloc i = some a)
    (hset : setNext { s with memory := alloc s.memory (some a) } (some a) = .ok t)
    (hnext : next t = .ok (some a)) (hmem : t.memory = Function.update b a (some ⟨none, none⟩)) :
    append malloc nums s i =
      .ok ⟨Function.update b a (some ⟨some (num nums i), some none⟩), t.dummy, .node a⟩ := by
  have hlast : setNext { t with tail := .node a } none =
      .ok ⟨Function.update b a (some ⟨none, some none⟩), t.dummy, .node a⟩ := by
    simp only [setNext, hmem, storeNext, storeAt_update, ok_bind]
    rfl
  rw [append, hmalloc, hset, ok_bind, hnext, ok_bind]
  simp only [hlast, ok_bind, storeVal, storeAt_update]
  rfl

/-- A new node is stored behind the tail, which then holds what it should. -/
theorem setNext_after (hm : Grants malloc m node nums.length) (hi : i + 1 < nums.length) :
    setNext { after node nums m (i + 1) with
        memory := alloc (after node nums m (i + 1)).memory (some (node (i + 1))) }
        (some (node (i + 1))) =
      .ok ⟨Function.update (written node (filled node nums) m (i + 1)) (node (i + 1))
        (some ⟨none, none⟩), some (some (node 0)), .node (node i)⟩ := by
  have hne := hm.ne_succ hi
  have hwritten : written node (filled node nums) m (i + 1) =
      Function.update (written node (filled node nums) m i) (node i)
        (some ⟨some (num nums i), some (some (node (i + 1)))⟩) := by
    rw [written, filled, ptr_of_lt hi]
  -- The store to the tail and the allocation are at different nodes.
  have hstore : storeNext (alloc (after node nums m (i + 1)).memory (some (node (i + 1))))
      (some (node i)) (some (node (i + 1))) =
      .ok (Function.update (written node (filled node nums) m (i + 1)) (node (i + 1))
        (some ⟨none, none⟩)) := by
    rw [hwritten, alloc, after, Function.update_comm hne, Function.update_comm hne, storeNext,
      storeAt_update]
  simp only [setNext, after] at hstore ⊢
  rw [hstore, ok_bind]
  rfl

/-- The body of the loop, where `tail` is the dummy at first and a node later. -/
theorem append_after (hm : Grants malloc m node nums.length) (hi : i < nums.length) :
    append malloc nums (after node nums m i) i = .ok (after node nums m (i + 1)) := by
  cases i with
  | zero =>
      exact append_of_setNext (t := ⟨alloc m (some (node 0)), some (some (node 0)), .dummy⟩) (b := m)
        (hm.answer 0 hi) rfl rfl rfl
  | succ i =>
      refine append_of_setNext (hm.answer (i + 1) hi) (setNext_after hm hi) ?_ rfl
      simp only [next, Function.update_of_ne (hm.ne_succ hi), written, Function.update_self, filled,
        load, ptr_of_lt hi]

theorem buildArray_eq (hm : Grants malloc m node nums.length) (hnums : nums ≠ []) :
    buildArray malloc m nums =
      .ok (written node (filled node nums) m nums.length, ptr node nums.length 0) := by
  obtain ⟨k, hk⟩ := Nat.exists_eq_succ_of_ne_zero (mt List.eq_nil_of_length_eq_zero hnums)
  have hlast : ptr node nums.length (k + 1) = none := ptr_of_le hk.le
  have hfirst : ptr node nums.length 0 = some (node 0) := ptr_of_lt (hk ▸ Nat.succ_pos k)
  have hloop : (List.range nums.length).foldlM (append malloc nums) ⟨m, none, .dummy⟩ =
      .ok (after node nums m nums.length) :=
    foldlM_range (after node nums m) fun _ hi => append_after hm hi
  rw [buildArray, hloop, hfirst, hk, written, filled, hlast]
  rfl

/-- The loop does not run, so nothing was stored to `dummy.next`. -/
theorem buildArray_nil (malloc : Nat → Option A) (m : Memory A) :
    buildArray malloc m [] = .error .indeterminate := rfl

theorem not_builds_nil : ¬ Builds m [] (buildArray malloc m []) := by
  rintro ⟨m', p, nodes, hok, -⟩
  rw [buildArray_nil] at hok
  cases hok

theorem builds_buildArray (hm : Grants malloc m node nums.length) (hnums : nums ≠ []) :
    Builds m nums (buildArray malloc m nums) := by
  rw [buildArray_eq hm hnums]
  exact builds_written hm

end Merge

/-! ## Both -/

/-- Both helpers build every array but the empty one. -/
theorem build_array_faithful_iff (malloc : Nat → Option A) (m : Memory A) (nums : List Int32)
    (node : Nat → A) (hm : Grants malloc m node nums.length) :
    Faithful malloc m nums ↔ nums ≠ [] := by
  constructor
  · rintro h rfl
    exact Merge.not_builds_nil h.merge
  · intro hnums
    have hagree : Reverse.buildArray malloc m nums = Merge.buildArray malloc m nums :=
      (Reverse.buildArray_eq hm).trans (Merge.buildArray_eq hm hnums).symm
    exact ⟨Reverse.builds_buildArray hm, Merge.builds_buildArray hm hnums, hagree⟩

/-- A `malloc` that hands out one number after the other. -/
theorem grants_some (n : Nat) : Grants some (fun _ => none) id n :=
  ⟨fun _ _ => rfl, fun _ _ _ _ heq => heq, fun _ _ => rfl⟩

/-- The first list of the test of `06-merge-two-sorted-lists.c`. -/
theorem build_array_faithful_iff_three :
    Grants some (fun _ => none) id 3 ∧ Faithful (A := Nat) some (fun _ => none) [1, 3, 5] := by
  have hm := grants_some 3
  exact ⟨hm, (build_array_faithful_iff some (fun _ => none) [1, 3, 5] id hm).mpr nofun⟩

/-- The empty array: NULL from the first, and nothing to return from the second. -/
theorem not_faithful_nil :
    Grants some (fun _ => none) id 0 ∧
      Reverse.buildArray (A := Nat) some (fun _ => none) [] = .ok (fun _ => none, none) ∧
      Merge.buildArray (A := Nat) some (fun _ => none) [] = .error .indeterminate ∧
      ¬ Faithful (A := Nat) some (fun _ => none) [] := by
  exact ⟨grants_some 0, rfl, Merge.buildArray_nil .., fun h => Merge.not_builds_nil h.merge⟩

end LinkedList
