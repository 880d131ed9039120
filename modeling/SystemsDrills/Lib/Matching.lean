import Mathlib.Tactic
import Mathlib.Data.List.ReduceOption

/-!
# Places for arrivals

Arrivals need a place each, and a place serves an arrival if its grade is at least what the arrival
needs.  Once given, a place is not given again.

The greedy way gives each arrival a free place of the least grade that serves it, without a look at
the arrivals to come.  No other way serves more of them (`Greedy.served_le`): if another way keeps
that place for a later arrival, then the two may change their places, since the later one is served
by any place that the greedy way passed over.
-/

namespace Matching

variable {V P : Type}

/-- Some of the arrivals get a free place that serves them, and each place goes to one at most. -/
structure Assignment (need : V → Nat) (grade : P → Nat) (free : P → Prop) (vs : List V)
    (g : List (Option P)) : Prop where
  good : List.Forall₂ (fun v o => ∀ p, o = some p → free p ∧ need v ≤ grade p) vs g
  once : g.reduceOption.Nodup

/-- How many arrivals got a place. -/
def served (g : List (Option P)) : Nat := g.reduceOption.length

@[simp]
theorem served_none (g : List (Option P)) : served (none :: g) = served g := rfl

@[simp]
theorem served_some (p : P) (g : List (Option P)) : served (some p :: g) = served g + 1 := rfl

/-- Each arrival gets a place of the least grade that serves it, if one is left. -/
inductive Greedy (need : V → Nat) (grade : P → Nat) :
    (P → Prop) → List V → List (Option P) → Prop where
  | nil {free} : Greedy need grade free [] []
  | place {free} {v : V} {vs} {p : P} {g} :
      free p → need v ≤ grade p → (∀ q, free q → need v ≤ grade q → grade p ≤ grade q) →
      Greedy need grade (fun q => free q ∧ q ≠ p) vs g →
      Greedy need grade free (v :: vs) (some p :: g)
  | turnAway {free} {v : V} {vs} {g} :
      (∀ q, free q → ¬ need v ≤ grade q) →
      Greedy need grade free vs g →
      Greedy need grade free (v :: vs) (none :: g)

variable {need : V → Nat} {grade : P → Nat} {free : P → Prop} {v : V} {vs : List V}
  {o : Option P} {g g' : List (Option P)} {p : P}

theorem Assignment.tail (h : Assignment need grade free (v :: vs) (o :: g)) :
    Assignment need grade free vs g := by
  refine ⟨(List.forall₂_cons.mp h.good).2, ?_⟩
  cases o with
  | none => exact h.once
  | some p => exact (List.nodup_cons.mp h.once).2

theorem Assignment.free_of_mem (h : Assignment need grade free vs g) (hp : some p ∈ g) : free p := by
  induction vs generalizing g with
  | nil =>
      rw [List.forall₂_nil_left_iff.mp h.good] at hp
      cases hp
  | cons v vs ih =>
      cases g with
      | nil => cases hp
      | cons o g =>
          rcases List.mem_cons.mp hp with heq | hp
          · exact ((List.forall₂_cons.mp h.good).1 p heq.symm).1
          · exact ih h.tail hp

/-- The greedy way is a way to give places. -/
theorem Greedy.assignment (h : Greedy need grade free vs g) : Assignment need grade free vs g := by
  induction h with
  | nil => exact ⟨.nil, List.nodup_nil⟩
  | @place free v vs p g hfree hneed hleast _ ih =>
      refine ⟨.cons ?_ (ih.good.imp fun v o ho q hq => ⟨(ho q hq).1.1, (ho q hq).2⟩), ?_⟩
      · rintro q ⟨⟩
        exact ⟨hfree, hneed⟩
      · refine List.nodup_cons.mpr ⟨fun hp => ?_, ih.once⟩
        exact (ih.free_of_mem (List.reduceOption_mem_iff.mp hp)).2 rfl
  | turnAway hnone _ ih =>
      exact ⟨.cons (fun q hq => nomatch hq) ih.good, ih.once⟩

/-! ## The exchange -/

/-- The place that `p` was kept for is free, is not `p`, and serves whoever `p` served. -/
theorem Assignment.good_exchange (hleast : ∀ q, free q → need v ≤ grade q → grade p ≤ grade q)
    (h : Assignment need grade free (v :: vs) (o :: g)) (hmem : some p ∈ g) {q : P}
    (hq : o = some q) : (free q ∧ q ≠ p) ∧ grade p ≤ grade q := by
  subst hq
  obtain ⟨hfree, hneed⟩ := (List.forall₂_cons.mp h.good).1 q rfl
  have hne : q ≠ p := by
    rintro rfl
    exact (List.nodup_cons.mp h.once).1 (List.reduceOption_mem_iff.mpr hmem)
  exact ⟨⟨hfree, hne⟩, hleast q hfree hneed⟩

section

variable [DecidableEq P]

/-- The arrival that has the place `p` gets `o` for it. -/
def exchange (p : P) (o : Option P) (g : List (Option P)) : List (Option P) :=
  g.map fun x => if x = some p then o else x

theorem reduceOption_exchange_some (p q : P) (g : List (Option P)) :
    (exchange p (some q) g).reduceOption = g.reduceOption.map fun x => if x = p then q else x := by
  induction g with
  | nil => rfl
  | cons x g ih =>
      cases x with
      | none => exact ih
      | some r =>
          by_cases hr : r = p
          · simp [exchange, hr, ← ih]
          · simp [exchange, hr, ← ih]

theorem reduceOption_exchange_none (p : P) (g : List (Option P)) :
    (exchange p none g).reduceOption = g.reduceOption.filter (· ≠ p) := by
  induction g with
  | nil => rfl
  | cons x g ih =>
      cases x with
      | none => exact ih
      | some r =>
          by_cases hr : r = p
          · simpa [exchange, hr] using ih
          · simpa [exchange, hr] using ih

theorem Assignment.once_exchange (h : Assignment need grade free (v :: vs) (o :: g)) :
    (exchange p o g).reduceOption.Nodup := by
  cases o with
  | none =>
      rw [reduceOption_exchange_none]
      exact h.tail.once.filter _
  | some q =>
      obtain ⟨hq, honce⟩ := List.nodup_cons.mp h.once
      rw [reduceOption_exchange_some]
      refine honce.map_on fun x hx y hy heq => ?_
      have hx' : x ≠ q := fun h => hq (h ▸ hx)
      have hy' : y ≠ q := fun h => hq (h ▸ hy)
      grind

/-- Without the first arrival and the place `p`, which goes to it, the others are still served:
whoever had `p` gets the place that the first arrival had. -/
theorem Assignment.exchange (hleast : ∀ q, free q → need v ≤ grade q → grade p ≤ grade q)
    (h : Assignment need grade free (v :: vs) (o :: g)) :
    Assignment need grade (fun q => free q ∧ q ≠ p) vs (exchange p o g) := by
  refine ⟨?_, h.once_exchange⟩
  have hgood := h.tail.good
  rw [List.forall₂_iff_get] at hgood ⊢
  refine ⟨by simpa [Matching.exchange] using hgood.1, fun i hi hi' q hq => ?_⟩
  have hig : i < g.length := by simpa [Matching.exchange] using hi'
  have hold := hgood.2 i hi hig
  simp only [Matching.exchange, List.get_eq_getElem, List.getElem_map] at hq hold ⊢
  split at hq
  case isTrue hp =>
      obtain ⟨hfree, hgrade⟩ := h.good_exchange hleast (hp ▸ List.getElem_mem hig) hq
      exact ⟨hfree, (hold p hp).2.trans hgrade⟩
  case isFalse hp =>
      refine ⟨⟨(hold q hq).1, ?_⟩, (hold q hq).2⟩
      rintro rfl
      exact hp hq

theorem served_exchange (h : (o :: g).reduceOption.Nodup) :
    served (o :: g) ≤ served (exchange p o g) + 1 := by
  cases o with
  | none =>
      have hcount : (g.reduceOption.filter (· = p)).length ≤ 1 := by
        rw [← List.countP_eq_length_filter]
        exact (List.nodup_iff_count_le_one.mp h) p
      have hsplit := List.length_eq_length_filter_add (l := g.reduceOption) (· = p)
      simp only [served, reduceOption_exchange_none, List.reduceOption_cons_of_none]
      simp only [ne_eq, decide_not]
      omega
  | some q => simp [served, reduceOption_exchange_some]

end

/-- No way to give places serves more arrivals than the greedy one. -/
theorem Greedy.served_le (h : Greedy need grade free vs g)
    (h' : Assignment need grade free vs g') : served g' ≤ served g := by
  classical
  induction h generalizing g' with
  | nil =>
      rw [List.forall₂_nil_left_iff.mp h'.good]
  | @place free v vs p g hfree hneed hleast _ ih =>
      cases g' with
      | nil => exact Nat.zero_le _
      | cons o g' =>
          have hrest := ih (h'.exchange hleast)
          have hlen := served_exchange (p := p) h'.once
          rw [served_some]
          exact hlen.trans (Nat.succ_le_succ hrest)
  | turnAway hnone _ ih =>
      cases g' with
      | nil => exact Nat.zero_le _
      | cons o g' =>
          cases o with
          | none => simpa using ih h'.tail
          | some q =>
              obtain ⟨hq, hneed⟩ := (List.forall₂_cons.mp h'.good).1 q rfl
              exact absurd hneed (hnone q hq)

end Matching
