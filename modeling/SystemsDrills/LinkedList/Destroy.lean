import SystemsDrills.LinkedList.BuildArray
import Mathlib.Data.Set.Card

/-!
# `destroy_list`, and the life of a list

The helper `destroy_list` of `Interview/leetcode/05-reverse-linked-list.c` and
`06-merge-two-sorted-lists.c` (the two are the same), on the memory of `SystemsDrills.LinkedList.BuildArray`.
A read through a pointer to a node that is not in use is an error, so a second `free` of a node is one
too: the node would have to be read first.

The loop ends on every memory.  It ends well exactly for a list that ends in NULL, and on a list that
runs into a cycle it reads a node that it has freed.

With `build_array` before and `reverseList` or `mergeTwoLists` in between, the memory is in the end what
it was at first: nothing is lost and nothing is freed twice.
-/

namespace LinkedList

section

variable {A : Type} [DecidableEq A]

/-- `destroy_list`: the memory after it. -/
def destroyList : Nat → Memory A → Option A → Option (Except Stop (Memory A))
  | 0, _, _ => none
  | _ + 1, m, none => some (.ok m)
  | fuel + 1, m, some curr =>
      match m curr with
      | none => some (.error .invalid)
      | some slot =>
          match load slot.next with
          | .error stop => some (.error stop)
          | .ok next => destroyList fuel (Function.update m curr none) next

/-- The memory without these nodes. -/
def release (m : Memory A) (nodes : List A) : Memory A := fun a => if a ∈ nodes then none else m a

/-- The memory after a call that left the heap `h`.  A node that the call has stored to holds what it
holds there. -/
def Memory.after (m : Memory A) (h : Heap A) : Memory A := fun a =>
  if h a = m.heap a then m a else (m a).map fun _ => ⟨some (h a).val, some (h a).next⟩

end

variable {A : Type} {m m' : Memory A} {p : Option A} {nodes : List A} {vs : List Int32} {a b : A}

/-- The pointer heads a list with these nodes, whose links were stored and which ends in NULL. -/
inductive Chain (m : Memory A) : Option A → List A → Prop where
  | nil : Chain m none []
  | cons {a : A} {slot : Slot A} {p : Option A} {nodes : List A} :
      m a = some slot → slot.next = some p → Chain m p nodes → Chain m (some a) (a :: nodes)

theorem Holds.chain (h : Holds m p nodes vs) : Chain m p nodes := by
  induction h with
  | nil => exact .nil
  | cons hslot _ ih => exact .cons hslot rfl ih

theorem Chain.isList (h : Chain m p nodes) : IsList m.heap p nodes := by
  induction h with
  | nil => exact .nil
  | @cons a slot p nodes hslot hnext _ ih =>
      refine .cons ?_
      rw [Memory.heap, hslot]
      simpa [hnext] using ih

theorem Chain.nodup (h : Chain m p nodes) : nodes.Nodup := h.isList.nodup

theorem Chain.inUse (h : Chain m p nodes) : ∀ a ∈ nodes, m a ≠ none := by
  induction h with
  | nil => exact fun a ha => nomatch ha
  | cons hslot _ _ ih =>
      intro b hb
      rcases List.mem_cons.mp hb with rfl | hb
      · rw [hslot]
        exact Option.some_ne_none _
      · exact ih b hb

/-- A chain does not depend on other nodes. -/
theorem Chain.congr (h : Chain m p nodes) (heq : ∀ a ∈ nodes, m' a = m a) : Chain m' p nodes := by
  induction h with
  | nil => exact .nil
  | cons hslot hnext _ ih =>
      obtain ⟨ha, hrest⟩ := List.forall_mem_cons.mp heq
      exact .cons (ha.trans hslot) hnext (ih hrest)

variable [DecidableEq A]

@[simp] theorem release_nil (m : Memory A) : release m [] = m := by
  funext a
  rw [release, if_neg List.not_mem_nil]

theorem release_cons (m : Memory A) (a : A) (nodes : List A) :
    release m (a :: nodes) = release (Function.update m a none) nodes := by
  funext b
  simp only [release, List.mem_cons, Function.update_apply]
  by_cases hba : b = a
  · simp [hba]
  · simp [hba]

/-! ## The loop -/

/-- A list that ends in NULL is freed node by node. -/
theorem destroyList_of_chain (h : Chain m p nodes) {fuel : Nat} (hfuel : nodes.length < fuel) :
    destroyList fuel m p = some (.ok (release m nodes)) := by
  induction fuel generalizing m p nodes with
  | zero => omega
  | succ fuel ih =>
      cases h with
      | nil => rw [destroyList, release_nil]
      | @cons a slot q nodes hslot hnext htail =>
          have hnodup := (Chain.cons hslot hnext htail).nodup
          have hout := (List.nodup_cons.mp hnodup).1
          -- The node that is freed is not met again.
          have htail' : Chain (Function.update m a none) q nodes :=
            htail.congr fun b hb => Function.update_of_ne (ne_of_mem_of_not_mem hb hout) ..
          rw [List.length_cons] at hfuel
          simp only [destroyList, hslot, hnext, load]
          rw [ih htail' (by omega), release_cons]

/-- Only a list that ends in NULL is freed without an error. -/
theorem chain_of_destroyList {fuel : Nat} (h : destroyList fuel m p = some (.ok m')) :
    ∃ nodes, Chain m p nodes ∧ m' = release m nodes := by
  induction fuel generalizing m p with
  | zero => cases h
  | succ fuel ih =>
      cases p with
      | none =>
          obtain rfl := Except.ok.inj (Option.some.inj h)
          exact ⟨[], .nil, (release_nil m).symm⟩
      | some curr =>
          cases hslot : m curr with
          | none => simp [destroyList, hslot] at h
          | some slot =>
              cases hnext : slot.next with
              | none => simp [destroyList, hslot, hnext, load] at h
              | some q =>
                  simp only [destroyList, hslot, hnext, load] at h
                  obtain ⟨nodes, hchain, rfl⟩ := ih h
                  have hout : curr ∉ nodes := fun hin =>
                    hchain.inUse curr hin (Function.update_self ..)
                  refine ⟨curr :: nodes, .cons hslot hnext (hchain.congr fun b hb => ?_), ?_⟩
                  · exact (Function.update_of_ne (ne_of_mem_of_not_mem hb hout) ..).symm
                  · rw [release_cons]

/-- Each round frees a node. -/
theorem destroyList_ends (hfin : {a | m a ≠ none}.Finite) {fuel : Nat}
    (hfuel : {a | m a ≠ none}.ncard < fuel) : ∃ r, destroyList fuel m p = some r := by
  induction fuel generalizing m p with
  | zero => omega
  | succ fuel ih =>
      cases p with
      | none => exact ⟨_, rfl⟩
      | some curr =>
          cases hslot : m curr with
          | none => exact ⟨.error .invalid, by simp [destroyList, hslot]⟩
          | some slot =>
              cases hnext : slot.next with
              | none => exact ⟨.error .indeterminate, by simp [destroyList, hslot, hnext, load]⟩
              | some q =>
                  have hmem : curr ∈ {a | m a ≠ none} := by simp [hslot]
                  have hset : {a | Function.update m curr none a ≠ none} =
                      {a | m a ≠ none} \ {curr} := by
                    ext b
                    by_cases hb : b = curr
                    · simp [hb]
                    · simp [hb]
                  have hcard := Set.ncard_sdiff_singleton_add_one hmem hfin
                  obtain ⟨r, hr⟩ := ih (m := Function.update m curr none) (p := q)
                    (by rw [hset]; exact hfin.sdiff) (by rw [hset]; omega)
                  refine ⟨r, ?_⟩
                  simp only [destroyList, hslot, hnext, load]
                  exact hr

/-- `destroy_list` ends on every memory, also with a list that runs into a cycle or into a node that is
not in use.  It returns exactly if the pointer heads a list that ends in NULL, and has then freed the
nodes of that list and nothing else. -/
theorem destroy_list_exact (m : Memory A) (hfin : {a | m a ≠ none}.Finite) (p : Option A) {fuel : Nat}
    (hfuel : {a | m a ≠ none}.ncard < fuel) :
    ∃ r, destroyList fuel m p = some r ∧
      ∀ m', r = .ok m' ↔ ∃ nodes, Chain m p nodes ∧ m' = release m nodes := by
  obtain ⟨r, hr⟩ := destroyList_ends (p := p) hfin hfuel
  refine ⟨r, hr, fun m' => ⟨?_, ?_⟩⟩
  · rintro rfl
    exact chain_of_destroyList hr
  · rintro ⟨nodes, hchain, rfl⟩
    have hlen : nodes.length < fuel := by
      refine lt_of_le_of_lt ?_ hfuel
      have hsub : (nodes.toFinset : Set A) ⊆ {a | m a ≠ none} := fun a ha =>
        hchain.inUse a (List.mem_toFinset.mp ha)
      rw [← List.toFinset_card_of_nodup hchain.nodup, ← Set.ncard_coe_finset]
      exact Set.ncard_le_ncard hsub hfin
    rw [destroyList_of_chain hchain hlen] at hr
    exact (Option.some.inj hr).symm

/-- A list of two nodes, and a node that is not part of it. -/
theorem destroy_list_exact_two :
    let m : Memory (Fin 3) := ![some ⟨some 5, some (some 2)⟩, some ⟨none, none⟩, some ⟨some 7, some none⟩]
    ∃ r, destroyList 4 m (some 0) = some r ∧ r = .ok (release m [0, 2]) ∧ release m [0, 2] 1 = m 1 := by
  intro m
  have hcard : {a | m a ≠ none}.ncard < 4 :=
    (Set.ncard_le_card _).trans_lt (by simp)
  obtain ⟨r, hr, hiff⟩ := destroy_list_exact m (Set.toFinite _) (some 0) hcard
  exact ⟨r, hr, (hiff _).mpr ⟨[0, 2], .cons rfl rfl (.cons rfl rfl .nil), rfl⟩, rfl⟩

/-! ## What a call leaves behind -/

section

variable {heap : Heap A} {head : Option A} {l : List A}

omit [DecidableEq A] in
theorem Holds.congr (h : Holds m p nodes vs) (heq : ∀ a ∈ nodes, m' a = m a) : Holds m' p nodes vs := by
  induction h with
  | nil => exact .nil
  | cons hslot _ ih =>
      obtain ⟨ha, hrest⟩ := List.forall_mem_cons.mp heq
      exact .cons (ha.trans hslot) (ih hrest)

omit [DecidableEq A] in
theorem Holds.slot (h : Holds m p nodes vs) (ha : a ∈ nodes) :
    m a = some ⟨some (m.heap a).val, some (m.heap a).next⟩ := by
  induction h with
  | nil => cases ha
  | cons hslot _ ih =>
      rcases List.mem_cons.mp ha with rfl | ha
      · rw [Memory.heap, hslot]
        rfl
      · exact ih ha

/-- The nodes of a list that was relinked. -/
theorem after_of_mem (h : Holds m p nodes vs) (ha : a ∈ nodes) :
    m.after heap a = some ⟨some (heap a).val, some (heap a).next⟩ := by
  rw [Memory.after]
  split
  · next heq => rw [heq, ← h.slot ha]
  · rw [h.slot ha, Option.map_some]

theorem after_of_eq (heq : heap a = m.heap a) : m.after heap a = m a := if_pos heq

/-- If all nodes in a list are initialised, so are those of any list that is made of them. -/
theorem holds_after (hslot : ∀ a ∈ nodes, m.after heap a = some ⟨some (heap a).val, some (heap a).next⟩)
    (hl : IsList heap head l) (hsub : ∀ a ∈ l, a ∈ nodes) :
    Holds (m.after heap) head l (l.map fun a => (heap a).val) := by
  induction hl with
  | nil => exact .nil
  | @cons a l _ ih =>
      obtain ⟨ha, hrest⟩ := List.forall_mem_cons.mp hsub
      exact .cons (hslot a ha) (ih hrest)

end

/-! ## The life of a list -/

variable {malloc malloc' : Nat → Option A} {node node' : Nat → A} {nums nums' : List Int32} {fuel : Nat}

/-- Two non-empty arrays made into lists and merged, as in the tests of `06-merge-two-sorted-lists.c`.  The
lists have been spliced, so one call of `destroy_list` frees both. -/
theorem merge_lifecycle (junk : Option A) (hne : nums ≠ []) (hne' : nums' ≠ [])
    (hm : Grants malloc m node nums.length)
    (hm' : ∀ m₁ list1, Merge.buildArray malloc m nums = .ok (m₁, list1) →
      Grants malloc' m₁ node' nums'.length)
    (hfuel : nums.length + nums'.length < fuel) :
    ∃ m₁ list1 m₂ list2 heap newhead nodes vs,
      Merge.buildArray malloc m nums = .ok (m₁, list1) ∧
      Merge.buildArray malloc' m₁ nums' = .ok (m₂, list2) ∧
      mergeTwoLists fuel junk m₂.heap list1 list2 = some (heap, newhead) ∧
      Holds (m₂.after heap) newhead nodes vs ∧ vs.Perm (nums ++ nums') ∧
      destroyList fuel (m₂.after heap) newhead = some (.ok m) := by
  obtain ⟨m₁, list1, l₁, hbuild₁, hholds₁, -, hfresh₁, hframe₁⟩ := Merge.builds_buildArray hm hne
  obtain ⟨m₂, list2, l₂, hbuild₂, hholds₂, -, hfresh₂, hframe₂⟩ :=
    Merge.builds_buildArray (hm' m₁ list1 hbuild₁) hne'
  -- The nodes of the first list are in use when the second is built.
  have hdisj : l₁.Disjoint l₂ := fun a ha ha' => hholds₁.chain.inUse a ha (hfresh₂ a ha')
  have hkept₁ : Holds m₂ list1 l₁ nums :=
    hholds₁.congr fun a ha => hframe₂ a fun hin => hdisj ha hin
  obtain ⟨hlist₁, hvals₁⟩ := hkept₁.isList
  obtain ⟨hlist₂, hvals₂⟩ := hholds₂.isList
  have hlen₁ : l₁.length = nums.length := by rw [← hvals₁, List.length_map]
  have hlen₂ : l₂.length = nums'.length := by rw [← hvals₂, List.length_map]
  obtain ⟨t, hrun, ht⟩ := mergeLoop_spec (s := ⟨⟨m₂.heap, junk⟩, .dummy, list1, list2⟩)
    ⟨hlist₁, hlist₂, hdisj, fun _ _ heq => nomatch heq⟩ (by rw [hlen₁, hlen₂]; exact hfuel)
  have hperm : (List.merge l₂ l₁ (goesFirst m₂.heap)).Perm (l₁ ++ l₂) :=
    (List.merge_perm_append _).trans List.perm_append_comm
  have hslot : ∀ a ∈ l₁ ++ l₂, m₂.after (attachRest t).heap a =
      some ⟨some ((attachRest t).heap a).val, some ((attachRest t).heap a).next⟩ := fun a ha =>
    (List.mem_append.mp ha).elim (after_of_mem hkept₁) (after_of_mem hholds₂)
  have hholds : Holds (m₂.after (attachRest t).heap) (attachRest t).dummy
      (List.merge l₂ l₁ (goesFirst m₂.heap)) _ :=
    holds_after hslot ht.list fun a ha => hperm.mem_iff.mp ha
  refine ⟨m₁, list1, m₂, list2, (attachRest t).heap, (attachRest t).dummy, _, _, hbuild₁, hbuild₂, ?_,
    hholds, ?_, ?_⟩
  · rw [mergeTwoLists, hrun]
    rfl
  · rw [List.map_congr_left fun a _ => ht.val a, ← hvals₁, ← hvals₂, ← List.map_append]
    exact hperm.map _
  · rw [destroyList_of_chain hholds.chain]
    · congr 2
      funext a
      rw [release]
      split
      · next ha =>
        by_cases ha₁ : a ∈ l₁
        · exact (hfresh₁ a ha₁).symm
        · have ha₂ : a ∈ l₂ := (List.mem_append.mp (hperm.mem_iff.mp ha)).resolve_left ha₁
          exact (hfresh₂ a ha₂).symm.trans (hframe₁ a ha₁)
      · next ha =>
        have hout : a ∉ l₁ ++ l₂ := fun hin => ha (hperm.mem_iff.mpr hin)
        rw [List.mem_append, not_or] at hout
        rw [after_of_eq (ht.heap a (fun heq => nomatch heq) ha), hframe₂ a hout.2, hframe₁ a hout.1]
    · rw [hperm.length_eq, List.length_append, hlen₁, hlen₂]
      exact hfuel

/-- The arrays of the first test of `06-merge-two-sorted-lists.c`. -/
theorem merge_lifecycle_six :
    ∃ (m₁ : Memory Nat) (list1 : Option Nat) (m₂ : Memory Nat) (list2 : Option Nat) (heap : Heap Nat)
      (newhead : Option Nat) (nodes : List Nat) (vs : List Int32),
      Merge.buildArray some (fun _ => none) [1, 3, 5] = .ok (m₁, list1) ∧
      Merge.buildArray (fun i => some (i + 3)) m₁ [2, 4, 6] = .ok (m₂, list2) ∧
      mergeTwoLists 7 none m₂.heap list1 list2 = some (heap, newhead) ∧
      Holds (m₂.after heap) newhead nodes vs ∧ vs.Perm ([1, 3, 5] ++ [2, 4, 6]) ∧
      destroyList 7 (m₂.after heap) newhead = some (.ok fun _ => none) := by
  have hm : Grants some (fun _ => none) id ([1, 3, 5] : List Int32).length := grants_some 3
  have hm' : ∀ m₁ list1, Merge.buildArray some (fun _ => none) [1, 3, 5] = .ok (m₁, list1) →
      Grants (fun i => some (i + 3)) m₁ (fun i => i + 3) ([2, 4, 6] : List Int32).length := by
    intro m₁ list1 hbuild
    rw [Merge.buildArray_eq hm (by decide)] at hbuild
    obtain ⟨rfl, -⟩ := Prod.mk.inj (Except.ok.inj hbuild)
    refine ⟨fun i _ => rfl, fun i _ j _ heq => Nat.add_right_cancel heq, fun i _ => ?_⟩
    rw [Stores.written_of_ne]
    intro j hj
    exact Nat.ne_of_gt (Nat.lt_of_lt_of_le hj (Nat.le_add_left 3 i))
  exact merge_lifecycle none (by decide) (by decide) hm hm' (by decide)

end LinkedList
