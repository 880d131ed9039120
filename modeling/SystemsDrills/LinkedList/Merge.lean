import SystemsDrills.Lib.Merging
import SystemsDrills.LinkedList.Reverse

/-!
# `mergeTwoLists`

`Interview/leetcode/06-merge-two-sorted-lists.c` merges two sorted lists in place.  `tail` is the
node behind which the next one is stored.  At first it is `dummy`, which is on the stack and not in
the heap, and whose `next` holds anything before the first store.

Whatever is stored behind `tail` later on, the nodes before it are not written again.  So the loop
is described by what the `next` of its first `tail` heads in the end (`mergeLoop_spec`), which is
`List.merge` of the nodes that are left.
-/

namespace LinkedList

/-! ## The code -/

/-- What `tail` points to. -/
inductive Ref (A : Type) where
  | dummy
  | node (a : A)
deriving DecidableEq

/-- The heap and the `next` of `dummy`. -/
structure Mem (A : Type) where
  heap : Heap A
  dummy : Option A

/-- The memory and the variables of the loop. -/
structure MergeState (A : Type) where
  mem : Mem A
  tail : Ref A
  list1 : Option A
  list2 : Option A

section

variable {A : Type}

/-- `r->next`. -/
def Mem.next (m : Mem A) : Ref A → Option A
  | .dummy => m.dummy
  | .node a => (m.heap a).next

variable [DecidableEq A]

/-- `r->next = p`. -/
def Mem.setNext (m : Mem A) (r : Ref A) (p : Option A) : Mem A :=
  match r with
  | .dummy => { m with dummy := p }
  | .node a => { m with heap := LinkedList.setNext m.heap a p }

/-- One of the two branches of the loop, with the nodes that the lists start with. -/
def splice (s : MergeState A) (a b : A) : MergeState A :=
  if (s.mem.heap a).val < (s.mem.heap b).val then
    let mem := s.mem.setNext s.tail (some a)
    { s with mem, list1 := (mem.heap a).next }
  else
    let mem := s.mem.setNext s.tail (some b)
    { s with mem, list2 := (mem.heap b).next }

/-- The loop.  There is no result if `tail` becomes NULL. -/
def mergeLoop : Nat → MergeState A → Option (MergeState A)
  | 0, _ => none
  | fuel + 1, s =>
    match s.list1, s.list2 with
    | some a, some b => do
        let s := splice s a b
        let t ← s.mem.next s.tail
        mergeLoop fuel { s with tail := .node t }
    | _, _ => some s

/-- The store after the loop. -/
def attachRest (s : MergeState A) : Mem A :=
  s.mem.setNext s.tail (match s.list1 with
    | some a => some a
    | none => s.list2)

/-- `mergeTwoLists`: the heap after it, and what it returns.  `junk` is what `dummy.next` holds at
first. -/
def mergeTwoLists (fuel : Nat) (junk : Option A) (heap : Heap A) (list1 list2 : Option A) :
    Option (Heap A × Option A) := do
  let s ← mergeLoop fuel ⟨⟨heap, junk⟩, .dummy, list1, list2⟩
  let mem := attachRest s
  return (mem.heap, mem.dummy)

end

/-! ## Stores -/

variable {A : Type} [DecidableEq A] {m m' : Mem A} {r : Ref A} {p : Option A} {a b : A}

@[simp]
theorem next_setNext_self (m : Mem A) (r : Ref A) (p : Option A) : (m.setNext r p).next r = p := by
  cases r with
  | dummy => rfl
  | node a =>
      show (LinkedList.setNext m.heap a p a).next = p
      rw [setNext_self]

@[simp]
theorem val_mem_setNext (m : Mem A) (r : Ref A) (p : Option A) (a : A) :
    ((m.setNext r p).heap a).val = (m.heap a).val := by
  cases r with
  | dummy => rfl
  | node b => exact val_setNext m.heap b p a

/-- A store changes no other node. -/
theorem heap_setNext_of_ne (m : Mem A) (p : Option A) (hne : r ≠ .node a) :
    (m.setNext r p).heap a = m.heap a := by
  cases r with
  | dummy => rfl
  | node b => exact setNext_of_ne m.heap (fun heq => hne (congrArg Ref.node heq.symm)) p

/-- So it keeps the lists that `r` is not part of. -/
theorem IsList.setNext {l : List A} {q : Option A} (h : IsList m.heap q l)
    (hout : ∀ a ∈ l, r ≠ .node a) (p : Option A) : IsList (m.setNext r p).heap q l :=
  h.congr fun a ha => by rw [heap_setNext_of_ne m p (hout a ha)]

/-! ## The loop -/

/-- `m'` has come from `m`: `r` is followed by `nodes`, and no other links have changed. -/
structure Spliced (m m' : Mem A) (r : Ref A) (nodes : List A) : Prop where
  list : IsList m'.heap (m'.next r) nodes
  val : ∀ a, (m'.heap a).val = (m.heap a).val
  heap : ∀ a, r ≠ .node a → a ∉ nodes → m'.heap a = m.heap a
  dummy : r ≠ .dummy → m'.dummy = m.dummy

variable {nodes l₁ l₂ : List A}

/-- The rest of a list is attached in one store. -/
theorem Spliced.rest (h : IsList m.heap p nodes) (hout : ∀ a ∈ nodes, r ≠ .node a) :
    Spliced m (m.setNext r p) r nodes := by
  refine ⟨?_, val_mem_setNext m r p, fun a hne _ => heap_setNext_of_ne m p hne, fun hne => ?_⟩
  · rw [next_setNext_self]
    exact h.setNext hout p
  · cases r with
    | dummy => exact absurd rfl hne
    | node a => rfl

/-- One node is stored behind `r`, and then the others behind that one. -/
theorem Spliced.cons (h : Spliced (m.setNext r (some a)) m' (.node a) nodes)
    (hout : ∀ b ∈ a :: nodes, r ≠ .node b) : Spliced m m' r (a :: nodes) := by
  have hnext : m'.next r = some a := by
    cases r with
    | dummy => exact h.dummy nofun
    | node c =>
        have hne : c ∉ a :: nodes := fun hin => hout c hin rfl
        rw [List.mem_cons, not_or] at hne
        obtain ⟨hca, hcn⟩ := hne
        have hkept := h.heap c (fun heq => hca (Ref.node.inj heq).symm) hcn
        show (m'.heap c).next = some a
        rw [hkept]
        exact next_setNext_self m (.node c) (some a)
  refine ⟨?_, fun b => ?_, fun b hne hb => ?_, fun hne => ?_⟩
  · rw [hnext]
    exact .cons h.list
  · rw [h.val, val_mem_setNext]
  · rw [List.mem_cons, not_or] at hb
    obtain ⟨hba, hb⟩ := hb
    rw [h.heap b (fun heq => hba (Ref.node.inj heq).symm) hb, heap_setNext_of_ne m _ hne]
  · rw [h.dummy nofun]
    cases r with
    | dummy => exact absurd rfl hne
    | node c => rfl

/-- The order in which nodes are taken: one of the second list goes before one of the first list
unless its value is greater. -/
def goesFirst (heap : Heap A) (b a : A) : Bool := (heap b).val ≤ (heap a).val

theorem goesFirst_setNext (m : Mem A) (r : Ref A) (p : Option A) :
    goesFirst (m.setNext r p).heap = goesFirst m.heap := by
  funext b a
  rw [goesFirst, goesFirst, val_mem_setNext, val_mem_setNext]

/-- A round that takes the node of the first list. -/
theorem mergeLoop_of_lt {fuel : Nat} (hlt : (m.heap a).val < (m.heap b).val) (hne : r ≠ .node a) :
    mergeLoop (fuel + 1) ⟨m, r, some a, some b⟩ =
      mergeLoop fuel ⟨m.setNext r (some a), .node a, (m.heap a).next, some b⟩ := by
  have hsplice : splice ⟨m, r, some a, some b⟩ a b =
      ⟨m.setNext r (some a), r, (m.heap a).next, some b⟩ := by
    simp only [splice, hlt, if_true, heap_setNext_of_ne m _ hne]
  simp only [mergeLoop, hsplice, next_setNext_self]
  rfl

/-- A round that takes the node of the second list. -/
theorem mergeLoop_of_not_lt {fuel : Nat} (hlt : ¬ (m.heap a).val < (m.heap b).val)
    (hne : r ≠ .node b) :
    mergeLoop (fuel + 1) ⟨m, r, some a, some b⟩ =
      mergeLoop fuel ⟨m.setNext r (some b), .node b, some a, (m.heap b).next⟩ := by
  have hsplice : splice ⟨m, r, some a, some b⟩ a b =
      ⟨m.setNext r (some b), r, some a, (m.heap b).next⟩ := by
    simp only [splice, hlt, if_false, heap_setNext_of_ne m _ hne]
  simp only [mergeLoop, hsplice, next_setNext_self]
  rfl

/-- What is left of the two lists, which `r` is not part of. -/
structure Left (m : Mem A) (r : Ref A) (p q : Option A) (l₁ l₂ : List A) : Prop where
  first : IsList m.heap p l₁
  second : IsList m.heap q l₂
  disjoint : l₁.Disjoint l₂
  tail : ∀ a ∈ l₁ ++ l₂, r ≠ .node a

omit [DecidableEq A] in
theorem Left.symm {q : Option A} (h : Left m r p q l₁ l₂) : Left m r q p l₂ l₁ :=
  ⟨h.second, h.first, h.disjoint.symm, fun a ha => h.tail a (List.perm_append_comm.mem_iff.mp ha)⟩

/-- A node is taken from one list and stored behind `r`. -/
theorem Left.take {q : Option A} (h : Left m r (some a) q (a :: l₁) l₂) :
    Left (m.setNext r (some a)) (.node a) (m.heap a).next q l₁ l₂ := by
  obtain ⟨hout₁, hout₂⟩ := List.forall_mem_append.mp h.tail
  obtain ⟨hnew₂, hdisj⟩ := List.disjoint_cons_left.mp h.disjoint
  have hnew₁ := (List.nodup_cons.mp h.first.nodup).1
  have htail : IsList m.heap (m.heap a).next l₁ := by
    cases h.first with
    | cons htail => exact htail
  refine ⟨?_, h.second.setNext hout₂ (some a), hdisj, ?_⟩
  · exact htail.setNext (fun c hc => hout₁ c (List.mem_cons_of_mem a hc)) (some a)
  · rintro c hc heq
    cases heq
    exact (List.mem_append.mp hc).elim hnew₁ hnew₂

/-- The loop and the store after it merge what is left of the two lists behind `tail`. -/
theorem mergeLoop_spec {s : MergeState A} {fuel : Nat}
    (h : Left s.mem s.tail s.list1 s.list2 l₁ l₂) (hfuel : l₁.length + l₂.length < fuel) :
    ∃ t, mergeLoop fuel s = some t ∧
      Spliced s.mem (attachRest t) s.tail (List.merge l₂ l₁ (goesFirst s.mem.heap)) := by
  induction fuel generalizing s l₁ l₂ with
  | zero => omega
  | succ fuel ih =>
      obtain ⟨m, r, list1, list2⟩ := s
      obtain ⟨h₁, h₂, -, hout⟩ := id h
      obtain ⟨hout₁, hout₂⟩ := List.forall_mem_append.mp hout
      cases h₁ with
      | nil =>
          refine ⟨⟨m, r, none, list2⟩, rfl, ?_⟩
          rw [List.merge_right]
          exact .rest h₂ hout₂
      | @cons a l₁ htail₁ =>
          cases h₂ with
          | nil =>
              refine ⟨⟨m, r, some a, none⟩, rfl, ?_⟩
              rw [List.nil_merge]
              exact .rest (.cons htail₁) hout₁
          | @cons b l₂ htail₂ =>
              have hall : ∀ c ∈ List.merge (b :: l₂) (a :: l₁) (goesFirst m.heap), r ≠ .node c :=
                fun c hc => (List.mem_merge.mp hc).elim (hout₂ c) (hout₁ c)
              rw [List.length_cons, List.length_cons] at hfuel
              by_cases hlt : (m.heap a).val < (m.heap b).val
              · have hfirst : ¬ goesFirst m.heap b a := by
                  rw [goesFirst, decide_eq_true_eq]
                  exact Int32.not_le.mpr hlt
                rw [List.cons_merge_cons_neg _ _ _ hfirst] at hall ⊢
                rw [mergeLoop_of_lt hlt (hout₁ a List.mem_cons_self)]
                obtain ⟨t, hrun, ht⟩ := ih
                  (s := ⟨m.setNext r (some a), .node a, (m.heap a).next, some b⟩) h.take
                  (by rw [List.length_cons]; omega)
                rw [goesFirst_setNext] at ht
                exact ⟨t, hrun, ht.cons hall⟩
              · have hfirst : goesFirst m.heap b a := by
                  rw [goesFirst, decide_eq_true_eq]
                  exact Int32.not_lt.mp hlt
                rw [List.cons_merge_cons_pos _ _ _ hfirst] at hall ⊢
                rw [mergeLoop_of_not_lt hlt (hout₂ b List.mem_cons_self)]
                obtain ⟨t, hrun, ht⟩ := ih
                  (s := ⟨m.setNext r (some b), .node b, some a, (m.heap b).next⟩) h.symm.take.symm
                  (by rw [List.length_cons]; omega)
                rw [goesFirst_setNext] at ht
                exact ⟨t, hrun, ht.cons hall⟩

/-- `mergeTwoLists` makes one sorted list of all nodes and keeps the order of each list, with the
second list first among equal values.  It changes no value and no other node. -/
theorem merge_two_lists_splices (junk : Option A) {heap : Heap A} {list1 list2 : Option A}
    (h₁ : IsList heap list1 l₁) (h₂ : IsList heap list2 l₂) (hdisj : l₁.Disjoint l₂)
    (hsorted₁ : l₁.Pairwise fun a b => (heap a).val ≤ (heap b).val)
    (hsorted₂ : l₂.Pairwise fun a b => (heap a).val ≤ (heap b).val) {fuel : Nat}
    (hfuel : l₁.length + l₂.length < fuel) :
    ∃ heap' head nodes, mergeTwoLists fuel junk heap list1 list2 = some (heap', head) ∧
      IsList heap' head nodes ∧ nodes.Perm (l₁ ++ l₂) ∧ nodes.Nodup ∧
      (nodes.Pairwise fun a b => (heap' a).val ≤ (heap' b).val) ∧
      l₁.Sublist nodes ∧ l₂.Sublist nodes ∧
      (∀ a ∈ l₁, ∀ b ∈ l₂, (heap a).val = (heap b).val → [b, a].Sublist nodes) ∧
      (∀ a, (heap' a).val = (heap a).val) ∧ ∀ a ∉ l₁ ++ l₂, heap' a = heap a := by
  obtain ⟨t, hrun, ht⟩ := mergeLoop_spec (s := ⟨⟨heap, junk⟩, .dummy, list1, list2⟩)
    ⟨h₁, h₂, hdisj, fun _ _ => nofun⟩ hfuel
  have htrans : ∀ a b c, goesFirst heap a b → goesFirst heap b c → goesFirst heap a c := by
    simp only [goesFirst, decide_eq_true_eq]
    exact fun a b c => Int32.le_trans
  have htotal : ∀ a b, goesFirst heap a b || goesFirst heap b a := by
    simp only [goesFirst, Bool.or_eq_true, decide_eq_true_eq]
    exact fun a b => Int32.le_total ..
  have hsorted : ∀ {l : List A}, (l.Pairwise fun a b => (heap a).val ≤ (heap b).val) →
      l.Pairwise fun a b => goesFirst heap a b := fun h => h.imp decide_eq_true
  refine ⟨_, _, _, ?_, ht.list, ?_, ht.list.nodup, ?_, Merging.sublist_right .., Merging.sublist_left ..,
    fun a ha b hb heq => ?_, ht.val, fun a ha => ?_⟩
  · rw [mergeTwoLists, hrun]
    rfl
  · exact (List.merge_perm_append _).trans List.perm_append_comm
  · have hmerge := List.pairwise_merge htrans htotal _ _ (hsorted hsorted₂) (hsorted hsorted₁)
    refine hmerge.imp fun hab => ?_
    rw [ht.val, ht.val]
    exact of_decide_eq_true hab
  · exact Merging.pair_sublist htrans (hsorted hsorted₂) hb ha (decide_eq_true (Int32.le_of_eq heq.symm))
  · refine ht.heap a nofun fun hin => ha ?_
    exact List.mem_append.mpr (List.mem_merge.mp hin).symm

/-- A node of the second list goes before one of the first list with the same value. -/
theorem merge_two_lists_splices_tie :
    let heap : Heap (Fin 4) := ![⟨1, some 1⟩, ⟨3, none⟩, ⟨3, none⟩, ⟨9, some 3⟩]
    ∃ heap' head nodes, mergeTwoLists 4 none heap (some 0) (some 2) = some (heap', head) ∧
      IsList heap' head nodes ∧ nodes.Perm [0, 1, 2] ∧ [2, 1].Sublist nodes ∧ heap' 3 = heap 3 := by
  intro heap
  have h₁ : IsList heap (some 0) [0, 1] := .cons (.cons .nil)
  have h₂ : IsList heap (some 2) [2] := .cons .nil
  obtain ⟨heap', head, nodes, hrun, hlist, hperm, -, -, -, -, htie, -, hframe⟩ :=
    merge_two_lists_splices none h₁ h₂ (by simp) (by decide) (by decide) (show 2 + 1 < 4 by decide)
  exact ⟨heap', head, nodes, hrun, hlist, hperm, htie 1 (by decide) 2 (by decide) rfl,
    hframe 3 (by decide)⟩

end LinkedList
