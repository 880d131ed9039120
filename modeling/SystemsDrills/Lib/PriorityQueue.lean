import Mathlib.Tactic
import Mathlib.Data.List.Sort
import Mathlib.Data.Multiset.Basic
import Mathlib.Order.RelClasses

/-!
# The best few of a stream

`Queue` is a priority queue together with what is known of it: `top` is an element that is
less than no other.  Of equivalent elements it may be any.  `Sorter` is a sort with what is
known of it.

To keep the `k` least elements of a stream, each one is pushed and then the top is popped if
there are too many (`offer`).  If the order is total, emptying the queue gives the first `k`
elements of the sorted stream, from the last one to the first.
-/

namespace PriorityQueue

variable {α : Type u}

/-- A priority queue ordered by `less`. -/
structure Queue (less : α → α → Prop) [IsStrictWeakOrder α less] where
  Q : Type u
  empty : Q
  push : Q → α → Q
  size : Q → Nat
  top : Q → Option α
  pop : Q → Q
  contents : Q → Multiset α
  contents_empty : contents empty = 0
  contents_push : ∀ q a, contents (push q a) = a ::ₘ contents q
  size_eq : ∀ q, size q = (contents q).card
  top_isSome : ∀ q, contents q ≠ 0 → (top q).isSome
  top_greatest : ∀ q a, top q = some a → ∀ b ∈ contents q, ¬ less a b
  contents_pop : ∀ q a, top q = some a → contents q = a ::ₘ contents (pop q)

/-- A sort by `less`. -/
structure Sorter (less : α → α → Prop) [IsStrictWeakOrder α less] where
  sort : List α → List α
  perm : ∀ l, (sort l).Perm l
  sorted : ∀ l, (sort l).Pairwise fun a b => ¬ less b a

section

variable {less : α → α → Prop} [IsStrictWeakOrder α less] (pq : Queue less)

/-- A push, and a pop if there are then more than `k` elements. -/
def offer (k : Nat) (q : pq.Q) (a : α) : pq.Q :=
  let q := pq.push q a
  if pq.size q > k then pq.pop q else q

/-- The elements in the order of the pops. -/
def drain : Nat → pq.Q → Option (List α)
  | 0, q => if pq.size q = 0 then some [] else none
  | fuel + 1, q =>
    if pq.size q = 0 then
      some []
    else do
      let a ← pq.top q
      let rest ← drain fuel (pq.pop q)
      return a :: rest

variable {pq} {q : pq.Q}

theorem size_eq_zero : pq.size q = 0 ↔ pq.contents q = 0 := by
  rw [pq.size_eq, Multiset.card_eq_zero]

/-- Emptying the queue gives its elements, none before a greater one. -/
theorem drain_spec {fuel : Nat} (hfuel : (pq.contents q).card ≤ fuel) :
    ∃ l : List α, drain pq fuel q = some l ∧ l = pq.contents q ∧
      l.Pairwise fun a b => ¬ less a b := by
  induction fuel generalizing q with
  | zero =>
      have hempty : pq.contents q = 0 := Multiset.card_eq_zero.mp (Nat.le_zero.mp hfuel)
      exact ⟨[], if_pos (size_eq_zero.mpr hempty), hempty.symm, List.Pairwise.nil⟩
  | succ fuel ih =>
      by_cases hempty : pq.contents q = 0
      · exact ⟨[], if_pos (size_eq_zero.mpr hempty), hempty.symm, List.Pairwise.nil⟩
      · obtain ⟨a, htop⟩ := Option.isSome_iff_exists.mp (pq.top_isSome q hempty)
        have hpop := pq.contents_pop q a htop
        rw [hpop, Multiset.card_cons] at hfuel
        obtain ⟨l, hl, hcontents, hsorted⟩ := ih (Nat.le_of_succ_le_succ hfuel)
        refine ⟨a :: l, ?_, ?_, List.pairwise_cons.mpr ⟨fun b hb => ?_, hsorted⟩⟩
        · rw [drain, if_neg (size_eq_zero.not.mpr hempty), htop, Option.bind_eq_bind,
            Option.bind_some, hl]
          rfl
        · rw [hpop, ← hcontents, Multiset.cons_coe]
        · refine pq.top_greatest q a htop b ?_
          rw [hpop, ← hcontents]
          exact Multiset.mem_cons_of_mem (Multiset.mem_coe.mpr hb)

end

/-! ## The best `k` -/

instance isStrictWeakOrder (less : α → α → Prop) [IsStrictTotalOrder α less] :
    IsStrictWeakOrder α less :=
  isStrictWeakOrder_of_isOrderConnected

variable {less : α → α → Prop} [IsStrictTotalOrder α less] {pq : Queue less} {k : Nat}
  {all kept rest : Multiset α}

/-- The `kept` are the best `k` of `all`, and the `rest` are the others. -/
structure Best (less : α → α → Prop) (k : Nat) (all kept rest : Multiset α) : Prop where
  all_eq : all = kept + rest
  card : kept.card = min k all.card
  best : ∀ a ∈ kept, ∀ b ∈ rest, ¬ less b a

theorem Best.offer {q : pq.Q} (h : Best less k all (pq.contents q) rest) (a : α) :
    ∃ rest', Best less k (a ::ₘ all) (pq.contents (offer pq k q a)) rest' := by
  have hcard : (pq.contents q).card + rest.card = all.card := by
    rw [h.all_eq, Multiset.card_add]
  have hkept := h.card
  rw [PriorityQueue.offer]
  simp only [pq.size_eq, pq.contents_push, Multiset.card_cons]
  split
  · next hmany =>
      have hne : pq.contents (pq.push q a) ≠ 0 := by
        rw [pq.contents_push]
        exact Multiset.cons_ne_zero
      obtain ⟨t, htop⟩ := Option.isSome_iff_exists.mp (pq.top_isSome _ hne)
      have hpop := pq.contents_pop _ t htop
      have hgreatest := pq.top_greatest _ t htop
      rw [pq.contents_push] at hpop hgreatest
      have hpopcard := congrArg Multiset.card hpop
      rw [Multiset.card_cons, Multiset.card_cons] at hpopcard
      refine ⟨t ::ₘ rest, ?_, ?_, fun x hx b hb => ?_⟩
      · rw [h.all_eq, ← Multiset.cons_add, hpop, Multiset.cons_add, Multiset.add_cons]
      · rw [Multiset.card_cons]
        omega
      · have hold : x ∈ a ::ₘ pq.contents q := hpop ▸ Multiset.mem_cons_of_mem hx
        have ht : t ∈ a ::ₘ pq.contents q := hpop ▸ Multiset.mem_cons_self t _
        have htx : ¬ less t x := hgreatest x hold
        obtain rfl | hb := Multiset.mem_cons.mp hb
        · exact htx
        -- The top was kept before, and is better than `b`, unless it is the new element.
        obtain rfl | ht := Multiset.mem_cons.mp ht
        · rw [← (Multiset.cons_inj_right t).mp hpop] at hx
          exact h.best x hx b hb
        · exact IsOrderConnected.neg_trans (h.best t ht b hb) htx
  · next hfew =>
      have hrest : rest = 0 := Multiset.card_eq_zero.mp (by omega)
      subst hrest
      refine ⟨0, ?_, ?_, fun _ _ b hb => absurd hb (Multiset.notMem_zero b)⟩
      · rw [h.all_eq, add_zero, add_zero, pq.contents_push]
      · rw [pq.contents_push, Multiset.card_cons, Multiset.card_cons]
        omega

/-- After a stream the queue has the best `k` of it. -/
theorem best_foldl_offer (pq : Queue less) (k : Nat) (l : List α) :
    ∃ rest, Best less k l (pq.contents (l.foldl (offer pq k) pq.empty)) rest := by
  induction l using List.reverseRecOn with
  | nil =>
      refine ⟨0, ?_, ?_, fun _ _ b hb => absurd hb (Multiset.notMem_zero b)⟩
      · rw [List.foldl_nil, pq.contents_empty]
        rfl
      · rw [List.foldl_nil, pq.contents_empty, Multiset.coe_nil, Multiset.card_zero, Nat.min_zero]
  | append_singleton l a ih =>
      obtain ⟨rest, h⟩ := ih
      obtain ⟨rest', h'⟩ := h.offer a
      have hall : (↑(l ++ [a]) : Multiset α) = a ::ₘ ↑l := by
        rw [Multiset.cons_coe]
        exact Multiset.coe_eq_coe.mpr (List.perm_append_singleton a l)
      rw [List.foldl_append, List.foldl_cons, List.foldl_nil, hall]
      exact ⟨rest', h'⟩

/-- Two sorted lists of the same elements are the same. -/
theorem eq_of_sorted {l l' : List α} (hl : l.Pairwise fun a b => ¬ less b a)
    (hl' : l'.Pairwise fun a b => ¬ less b a) (hperm : l.Perm l') : l = l' :=
  hperm.eq_of_pairwise (fun a b _ _ hab hba =>
    Std.Trichotomous.trichotomous (r := less) a b hba hab) hl hl'

/-- The best `k` come first in the sorted list. -/
theorem Best.take_sort (sorter : Sorter less) {l best : List α} (h : Best less k l kept rest)
    (hbest : best = kept) (hsorted : best.Pairwise fun a b => ¬ less b a) :
    (sorter.sort l).take k = best := by
  obtain ⟨r, rfl⟩ : ∃ r : List α, ↑r = rest := Quot.exists_rep rest
  have hall := h.all_eq
  have hcard := h.card
  rw [← hbest, Multiset.coe_card, Multiset.coe_card] at hcard
  rw [← hbest, Multiset.coe_add, Multiset.coe_eq_coe] at hall
  have hsort : sorter.sort l = best ++ sorter.sort r := by
    refine eq_of_sorted (sorter.sorted l) ?_ ?_
    · refine List.pairwise_append.mpr ⟨hsorted, sorter.sorted r, fun a ha b hb => ?_⟩
      refine h.best a (hbest ▸ Multiset.mem_coe.mpr ha) b (Multiset.mem_coe.mpr ?_)
      exact (sorter.perm r).mem_iff.mp hb
    · exact (sorter.perm l).trans (hall.trans ((sorter.perm r).symm.append_left best))
  have hlen := hall.length_eq
  rw [List.length_append] at hlen
  by_cases hk : k ≤ l.length
  · rw [hsort, List.take_left' (by omega)]
  · have hr : r = [] := List.length_eq_zero_iff.mp (by omega)
    rw [List.take_of_length_le (by rw [(sorter.perm l).length_eq]; omega), hsort, hr,
      List.perm_nil.mp (sorter.perm []), List.append_nil]

/-- The queue gives the first `k` elements of the sorted stream, the last one first. -/
theorem drain_eq_take_sort (pq : Queue less) (sorter : Sorter less) (k : Nat) (l : List α)
    {fuel : Nat} (hfuel : l.length ≤ fuel) :
    drain pq fuel (l.foldl (offer pq k) pq.empty) = some ((sorter.sort l).take k).reverse := by
  obtain ⟨rest, h⟩ := best_foldl_offer pq k l
  have hcard : (pq.contents (l.foldl (offer pq k) pq.empty)).card ≤ fuel := by
    rw [h.card, Multiset.coe_card]
    omega
  obtain ⟨worst, hdrain, hcontents, hsorted⟩ := drain_spec hcard
  have hbest : (↑worst.reverse : Multiset α) = pq.contents (l.foldl (offer pq k) pq.empty) := by
    rw [← hcontents, Multiset.coe_reverse]
  rw [hdrain, h.take_sort sorter hbest (List.pairwise_reverse.mpr hsorted), List.reverse_reverse]

/-! ## A queue and a sort -/

theorem exists_greatest (less : α → α → Prop) [IsStrictWeakOrder α less] {l : List α}
    (hne : l ≠ []) : ∃ a ∈ l, ∀ b ∈ l, ¬ less a b := by
  induction l with
  | nil => exact absurd rfl hne
  | cons a l ih =>
      by_cases hl : l = []
      · subst hl
        refine ⟨a, List.mem_cons_self, fun b hb => ?_⟩
        rw [List.mem_singleton.mp hb]
        exact irrefl a
      obtain ⟨m, hm, hgreatest⟩ := ih hl
      by_cases hlt : less m a
      · refine ⟨a, List.mem_cons_self, List.forall_mem_cons.mpr ⟨irrefl a, fun b hb hab => ?_⟩⟩
        exact hgreatest b hb (IsTrans.trans m a b hlt hab)
      · exact ⟨m, List.mem_cons_of_mem a hm, List.forall_mem_cons.mpr ⟨hlt, hgreatest⟩⟩

/-- The first element that is less than no other. -/
def greatest? (less : α → α → Prop) [DecidableRel less] (l : List α) : Option α :=
  l.find? fun a => l.all fun b => ¬ less a b

theorem of_greatest?_eq_some {less : α → α → Prop} [DecidableRel less] {l : List α} {a : α}
    (h : greatest? less l = some a) :
    a ∈ l ∧ ∀ b ∈ l, ¬ less a b := by
  refine ⟨List.mem_of_find?_eq_some h, ?_⟩
  simpa using List.find?_some h

/-- A list as a queue. -/
def listQueue (less : α → α → Prop) [IsStrictWeakOrder α less] [DecidableRel less]
    [DecidableEq α] : Queue less where
  Q := List α
  empty := []
  push l a := a :: l
  size := List.length
  top := greatest? less
  pop l := (greatest? less l).elim l l.erase
  contents l := l
  contents_empty := rfl
  contents_push _ _ := rfl
  size_eq _ := rfl
  top_isSome l hne := by
    obtain ⟨a, ha, hgreatest⟩ := exists_greatest less fun h0 : l = [] => hne (congrArg _ h0)
    rw [greatest?, List.find?_isSome]
    exact ⟨a, ha, by simpa using hgreatest⟩
  top_greatest l a h := (of_greatest?_eq_some h).2
  contents_pop l a h := by
    rw [h]
    exact Multiset.coe_eq_coe.mpr (List.perm_cons_erase (of_greatest?_eq_some h).1)

/-- The merge sort. -/
def mergeSorter (less : α → α → Prop) [IsStrictTotalOrder α less] [DecidableRel less] :
    Sorter less where
  sort l := l.mergeSort fun a b => ¬ less b a
  perm l := List.mergeSort_perm l _
  sorted l := by
    have htrans : ∀ a b c : α, decide (¬ less b a) = true → decide (¬ less c b) = true →
        decide (¬ less c a) = true := by
      intro a b c hab hbc
      simp only [decide_eq_true_eq] at hab hbc ⊢
      exact IsOrderConnected.neg_trans hbc hab
    have htotal : ∀ a b : α, (decide (¬ less b a) || decide (¬ less a b)) = true := by
      intro a b
      simp only [Bool.or_eq_true, decide_eq_true_eq]
      by_contra hboth
      push Not at hboth
      exact asymm hboth.1 hboth.2
    simpa using List.pairwise_mergeSort htrans htotal l

end PriorityQueue
