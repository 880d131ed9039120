import SystemsDrills.Lib.Reversible
import Mathlib.Data.FinEnum
import Mathlib.Data.Fintype.Pi

/-!
# `reverseList`

The loop of `Interview/leetcode/05-reverse-linked-list.c` on an explicit heap.  `A` is the type
of the addresses of nodes and a pointer is one of them or NULL, so every `next` is NULL or a
node.  The heap is arbitrary: the list may run into a cycle.

Each round can be undone, so the loop ends on every heap.  Where the list ends in NULL, the
pointers `prev` and `curr` head two lists that share no node, one of which grows as the other
shrinks.
-/

namespace LinkedList

open Reversible

/-! ## The code -/

/-- `struct ListNode`. -/
structure Node (A : Type) where
  val : Int32
  next : Option A
deriving DecidableEq

/-- What is at each address. -/
abbrev Heap (A : Type) := A → Node A

/-- The heap and the variables of the loop. -/
structure State (A : Type) where
  heap : Heap A
  prev : Option A
  curr : Option A

section

variable {A : Type} [DecidableEq A]

/-- `c->next = p`. -/
def setNext (h : Heap A) (c : A) (p : Option A) : Heap A :=
  Function.update h c { h c with next := p }

/-- The body of the loop, while `curr` is not NULL. -/
def body (s : State A) : Option (State A) :=
  match s.curr with
  | none => none
  | some c => some ⟨setNext s.heap c s.prev, some c, (s.heap c).next⟩

/-- `reverseList`: the heap after it, and what it returns. -/
def reverseList (fuel : Nat) (heap : Heap A) (head : Option A) : Option (Heap A × Option A) :=
  (loop body fuel ⟨heap, none, head⟩).map fun s => (s.heap, s.prev)

/-! ## The loop ends -/

@[simp]
theorem setNext_self (h : Heap A) (c : A) (p : Option A) :
    setNext h c p c = { h c with next := p } := Function.update_self ..

theorem setNext_of_ne (h : Heap A) {a c : A} (hne : a ≠ c) (p : Option A) :
    setNext h c p a = h a := Function.update_of_ne hne ..

@[simp]
theorem val_setNext (h : Heap A) (c : A) (p : Option A) (a : A) :
    (setNext h c p a).val = (h a).val := by
  by_cases heq : a = c
  · rw [heq, setNext_self]
  · rw [setNext_of_ne h heq]

/-- A round, undone. -/
def unbody (s : State A) : State A :=
  match s.prev with
  | none => s
  | some c => ⟨setNext s.heap c s.curr, (s.heap c).next, some c⟩

theorem unbody_body (s t : State A) (h : body s = some t) : unbody t = s := by
  obtain ⟨heap, prev, curr⟩ := s
  cases curr with
  | none => cases h
  | some c =>
      cases h
      have hheap : setNext (setNext heap c prev) c (heap c).next = heap := by
        rw [setNext, setNext_self, setNext, Function.update_idem]
        exact Function.update_eq_self c heap
      rw [unbody]
      simp only [hheap, setNext_self]

instance [Finite A] : Finite (Node A) :=
  Finite.of_injective (fun nd : Node A => (nd.val, nd.next)) fun ⟨_, _⟩ ⟨_, _⟩ h => by
    cases h
    rfl

instance [Finite A] : Finite (State A) :=
  Finite.of_injective (fun s : State A => (s.heap, s.prev, s.curr)) fun ⟨_, _, _⟩ ⟨_, _, _⟩ h => by
    cases h
    rfl

/-- No round leaves `prev` NULL. -/
theorem reverseList_ends [Finite A] (heap : Heap A) (head : Option A) :
    ∃ r n, ∀ fuel, n ≤ fuel → reverseList fuel heap head = some r := by
  have hfirst : ∀ s : State A, body s ≠ some ⟨heap, none, head⟩ := by
    rintro ⟨_, _, _ | c⟩ h
    · cases h
    · cases h
  obtain ⟨t, n, hloop⟩ := loop_ends unbody_body hfirst
  refine ⟨(t.heap, t.prev), n, fun fuel hfuel => ?_⟩
  rw [reverseList, hloop fuel hfuel]
  rfl

end

/-! ## Lists that end in NULL -/

variable {A : Type}

/-- The pointer heads a list with these nodes, which ends in NULL. -/
inductive IsList (h : Heap A) : Option A → List A → Prop where
  | nil : IsList h none []
  | cons {a : A} {l : List A} : IsList h (h a).next l → IsList h (some a) (a :: l)

variable {h h' : Heap A} {p p' c : Option A} {l rest done : List A} {a : A}

/-- The nodes of a list are determined by its head. -/
theorem IsList.unique (hl : IsList h p l) (hl' : IsList h p rest) : l = rest := by
  induction hl generalizing rest with
  | nil => cases hl' with | nil => rfl
  | cons _ ih => cases hl' with | cons htail => rw [ih htail]

/-- Each node heads the rest of the list. -/
theorem IsList.of_append (hl : IsList h p (l ++ a :: rest)) : IsList h (some a) (a :: rest) := by
  induction l generalizing p with
  | nil =>
      cases hl with
      | cons htail => exact .cons htail
  | cons b l ih =>
      cases hl with
      | cons htail => exact ih htail

/-- A list that ends in NULL has no node twice. -/
theorem IsList.nodup (hl : IsList h p l) : l.Nodup := by
  induction hl with
  | nil => exact List.nodup_nil
  | @cons a l htail ih =>
      refine List.nodup_cons.mpr ⟨fun hin => ?_, ih⟩
      obtain ⟨before, after, rfl⟩ := List.append_of_mem hin
      have hlen := congrArg List.length (IsList.unique (.cons htail) htail.of_append)
      simp only [List.length_cons, List.length_append] at hlen
      omega

theorem IsList.congr (hl : IsList h p l) (heq : ∀ a ∈ l, (h' a).next = (h a).next) :
    IsList h' p l := by
  induction hl with
  | nil => exact .nil
  | cons _ ih =>
      obtain ⟨ha, hrest⟩ := List.forall_mem_cons.mp heq
      refine .cons ?_
      rw [ha]
      exact ih hrest

/-- The nodes of a list, in order, determine its links. -/
theorem IsList.links (hl : IsList h p l) (hl' : IsList h' p' l) :
    p' = p ∧ ∀ a ∈ l, (h' a).next = (h a).next := by
  induction hl generalizing p' with
  | nil =>
      cases hl' with
      | nil => exact ⟨rfl, nofun⟩
  | cons _ ih =>
      cases hl' with
      | cons htail =>
          obtain ⟨hnext, hrest⟩ := ih htail
          exact ⟨rfl, List.forall_mem_cons.mpr ⟨hnext, hrest⟩⟩

/-! ## The two lists of the loop -/

variable [DecidableEq A]

/-- What the loop does when `curr` heads the nodes `rest` and `prev` the nodes `done`. -/
theorem loop_spec (hc : IsList h c rest) (hp : IsList h p done) (hdisj : rest.Disjoint done)
    {fuel : Nat} (hfuel : rest.length < fuel) :
    ∃ t : State A, loop body fuel ⟨h, p, c⟩ = some t ∧ IsList t.heap t.prev (rest.reverse ++ done) ∧
      (∀ a, (t.heap a).val = (h a).val) ∧ ∀ a ∉ rest, t.heap a = h a := by
  induction rest generalizing h p c done fuel with
  | nil =>
      cases hc with
      | nil => exact ⟨⟨h, p, none⟩, loop_of_none rfl hfuel, hp, fun _ => rfl, fun _ _ => rfl⟩
  | cons a rest ih =>
      cases hc with
      | cons htail =>
          obtain ⟨fuel, rfl⟩ :=
            Nat.exists_eq_succ_of_ne_zero (Nat.ne_of_gt (Nat.zero_lt_of_lt hfuel))
          obtain ⟨hnew, hdisj⟩ := List.disjoint_cons_left.mp hdisj
          have hout : a ∉ rest := (List.nodup_cons.mp (IsList.cons htail).nodup).1
          have hsame : ∀ b ≠ a, setNext h a p b = h b := fun b hb => setNext_of_ne h hb p
          have hc' : IsList (setNext h a p) (h a).next rest :=
            htail.congr fun b hb => by rw [hsame b (ne_of_mem_of_not_mem hb hout)]
          have hp' : IsList (setNext h a p) (some a) (a :: done) := by
            refine .cons ?_
            rw [setNext_self]
            exact hp.congr fun b hb => by rw [hsame b (ne_of_mem_of_not_mem hb hnew)]
          obtain ⟨t, hloop, hlist, hval, hframe⟩ := ih hc' hp'
            (List.disjoint_cons_right.mpr ⟨hout, hdisj⟩) (Nat.lt_of_succ_lt_succ hfuel)
          refine ⟨t, hloop, ?_, fun b => ?_, fun b hb => ?_⟩
          · rw [List.reverse_cons, List.append_assoc]
            exact hlist
          · rw [hval, val_setNext]
          · rw [List.mem_cons, not_or] at hb
            obtain ⟨hne, hb⟩ := hb
            rw [hframe b hb, hsame b hne]

/-- The list is turned round, and nothing else changes. -/
theorem reverseList_spec (hl : IsList h p l) {fuel : Nat} (hfuel : l.length < fuel) :
    ∃ h' p', reverseList fuel h p = some (h', p') ∧ IsList h' p' l.reverse ∧
      (∀ a, (h' a).val = (h a).val) ∧ ∀ a ∉ l, h' a = h a := by
  obtain ⟨t, hloop, hlist, hval, hframe⟩ := loop_spec hl .nil (List.disjoint_nil_right l) hfuel
  rw [List.append_nil] at hlist
  refine ⟨t.heap, t.prev, ?_, hlist, hval, hframe⟩
  rw [reverseList, hloop]
  rfl

/-- `reverseList` ends on every heap.  Where the list ends in NULL, it turns it round, changes
nothing else, and undoes itself. -/
theorem reverse_list_total [Finite A] (heap : Heap A)
    (head : Option A) :
    (∃ r n, ∀ fuel, n ≤ fuel → reverseList fuel heap head = some r) ∧
      ∀ nodes, IsList heap head nodes → ∀ fuel, nodes.length < fuel →
        ∃ heap' head', reverseList fuel heap head = some (heap', head') ∧
          IsList heap' head' nodes.reverse ∧ (∀ a, (heap' a).val = (heap a).val) ∧
          (∀ a ∉ nodes, heap' a = heap a) ∧
          reverseList fuel heap' head' = some (heap, head) := by
  refine ⟨reverseList_ends heap head, fun nodes hl fuel hfuel => ?_⟩
  obtain ⟨h₁, p₁, hrun₁, hl₁, hval₁, hframe₁⟩ := reverseList_spec hl hfuel
  have hlen : nodes.reverse.length < fuel := by rwa [List.length_reverse]
  obtain ⟨h₂, p₂, hrun₂, hl₂, hval₂, hframe₂⟩ := reverseList_spec hl₁ hlen
  rw [List.reverse_reverse] at hl₂
  obtain ⟨rfl, hlinks⟩ := hl.links hl₂
  have hheap : h₂ = heap := by
    funext a
    by_cases ha : a ∈ nodes
    · have hval : (h₂ a).val = (heap a).val := (hval₂ a).trans (hval₁ a)
      have hnext : (h₂ a).next = (heap a).next := hlinks a ha
      rw [show h₂ a = ⟨(h₂ a).val, (h₂ a).next⟩ from rfl, hval, hnext]
    · rw [hframe₂ a fun hin => ha (List.mem_reverse.mp hin), hframe₁ a ha]
  exact ⟨h₁, p₁, hrun₁, hl₁, hval₁, hframe₁, hheap ▸ hrun₂⟩

/-- A list of two nodes beside a node that points to itself. -/
theorem reverse_list_total_two :
    let heap : Heap (Fin 3) := ![⟨5, some 1⟩, ⟨7, none⟩, ⟨9, some 2⟩]
    (∃ r n, ∀ fuel, n ≤ fuel → reverseList fuel heap (some 2) = some r) ∧
      ∃ heap' head', reverseList 3 heap (some 0) = some (heap', head') ∧
        IsList heap' head' [1, 0] ∧ heap' 2 = heap 2 ∧
        reverseList 3 heap' head' = some (heap, some 0) := by
  intro heap
  refine ⟨(reverse_list_total heap (some 2)).1, ?_⟩
  have hl : IsList heap (some 0) [0, 1] := .cons (.cons .nil)
  obtain ⟨heap', head', hrun, hlist, -, hframe, hback⟩ :=
    (reverse_list_total heap (some 0)).2 [0, 1] hl 3 (by decide)
  exact ⟨heap', head', hrun, hlist, hframe 2 (by decide), hback⟩

end LinkedList
